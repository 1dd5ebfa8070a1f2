import Blindplane.Crypto.Field.Reachable

/-! # X25519 Diffie-Hellman

The ladder keeps four elements and a swap it owes. Each step pays what is owed, doubles
one point and adds the other, and writes the doubling a little differently from RFC 7748;
over the integers modulo `p` the two come to the same.
-/

namespace Blindplane.Crypto

open Lib Lib.Arithmetic Curve25519

namespace Rfc7748

/-- The working values of the ladder, and whether the two points are to be exchanged. -/
structure Ladder where
  x2 : F
  z2 : F
  x3 : F
  z3 : F
  swap : Bool

/-- `decodeScalar25519`, on the number the bytes hold. -/
def decodeScalar (n : Nat) : Nat := 2 ^ 254 + n % 2 ^ 254 / 8 * 8

/-- `(A - 2) / 4`. -/
def a24 : F := (121665 : Nat)

/-- Pay the swap owed. -/
def Ladder.cswap (s : Ladder) (swap : Bool) : Ladder :=
  if swap then { s with x2 := s.x3, z2 := s.z3, x3 := s.x2, z3 := s.z2 } else s

/-- One pass of the loop, for bit `t` of the scalar. -/
def Ladder.step (k : Nat) (x1 : F) (s : Ladder) (t : Nat) : Ladder :=
  let k_t := k.testBit t
  let s := s.cswap (s.swap ^^ k_t)
  let A := s.x2 + s.z2
  let AA := A ^ 2
  let B := s.x2 - s.z2
  let BB := B ^ 2
  let E := AA - BB
  let C := s.x3 + s.z3
  let D := s.x3 - s.z3
  let DA := D * A
  let CB := C * B
  { x3 := (DA + CB) ^ 2, z3 := x1 * (DA - CB) ^ 2, x2 := AA * BB, z2 := E * (AA + a24 * E), swap := k_t }

/-- The function X25519 of a scalar and a u-coordinate, read as numbers. -/
def x25519 (scalar u : Nat) : F :=
  let x1 : F := (u % 2 ^ 255 : Nat)
  let start : Ladder := { x2 := 1, z2 := 0, x3 := x1, z3 := 1, swap := false }
  let s := (List.range 255).reverse.foldl (Ladder.step (decodeScalar scalar) x1) start
  let s := s.cswap s.swap
  s.x2 * s.z2 ^ (P - 2)

end Rfc7748

/-- The working values of the ladder in limbs, and the swap it owes. -/
structure Rungs where
  x2 : Limbs
  z2 : Limbs
  x3 : Limbs
  z3 : Limbs
  swap : Choice

namespace Rungs

/-- What the loop starts from. -/
def start (x1 : Limbs) : Rungs where
  x2 := Fe.ONE.limbs
  z2 := Fe.ZERO.limbs
  x3 := x1
  z3 := Fe.ONE.limbs
  swap := Choice.FALSE

/-- Exchange the two working points with a mask. -/
def exchange (s : Rungs) (swap : Choice) : Rungs :=
  let (x2, x3) := Fe.swapLimbs s.x2 s.x3 swap
  let (z2, z3) := Fe.swapLimbs s.z2 s.z3 swap
  { s with x2, z2, x3, z3 }

section Routines

variable {m : Type → Type} [Monad m] [Arithmetic m]

/-- One pass of the loop: bit `i` of the clamped scalar, highest first. -/
def step (clamped : Bytes) (x1 : Limbs) (s : Rungs) (i : Nat) : m Rungs := do
  let bit := Choice.fromBit ((clamped.getD (i >>> 3) 0).toNat >>> (i &&& 7) &&& 1)
  let swap := s.swap.xor bit
  let s := s.exchange swap
  let a ← s.x2.addLimbs s.z2
  let b ← s.x2.subLimbs s.z2
  let c ← s.x3.addLimbs s.z3
  let d ← s.x3.subLimbs s.z3
  let da ← d.mulLimbs a
  let cb ← c.mulLimbs b
  let aa ← a.squareLimbs
  let bb ← b.squareLimbs
  let x3 ← (← da.addLimbs cb).squareLimbs
  let z3 ← x1.mulLimbs (← (← da.subLimbs cb).squareLimbs)
  let x2 ← aa.mulLimbs bb
  let e ← aa.subLimbs bb
  let z2 ← e.mulLimbs (← bb.addLimbs (← e.mul121666Limbs))
  return { x2, z2, x3, z3, swap := bit }

/-- The passes for the bits of `indices`, in turn. -/
def ladder (scalar point : Vector UInt8 32) (indices : List Nat) : m Rungs :=
  let x1 := (Fe.fromBytes point).limbs
  indices.foldlM (step (clamp scalar).toList x1) (start x1)

end Routines

/-- Limbs within bounds that stand for the working values, owing the same swap. -/
structure Denotes (r : Rungs) (s : Rfc7748.Ladder) : Prop where
  x2 : ∃ a : Fe, r.x2 = a.limbs ∧ a.val = s.x2
  z2 : ∃ a : Fe, r.z2 = a.limbs ∧ a.val = s.z2
  x3 : ∃ a : Fe, r.x3 = a.limbs ∧ a.val = s.x3
  z3 : ∃ a : Fe, r.z3 = a.limbs ∧ a.val = s.z3
  swap : r.swap.isSet = s.swap

/-- The bounds the field routines need of their operands. -/
structure Bounded (r : Rungs) : Prop where
  x2 : r.x2.WeaklyReduced
  z2 : r.z2.WeaklyReduced
  x3 : r.x3.WeaklyReduced
  z3 : r.z3.WeaklyReduced

variable {r : Rungs} {s : Rfc7748.Ladder}

theorem Denotes.bounded (denotes : r.Denotes s) : r.Bounded := by
  obtain ⟨⟨a, ha, -⟩, ⟨b, hb, -⟩, ⟨c, hc, -⟩, ⟨d, hd, -⟩, -⟩ := denotes
  exact ⟨ha ▸ a.reduced, hb ▸ b.reduced, hc ▸ c.reduced, hd ▸ d.reduced⟩

theorem Denotes.exchange (denotes : r.Denotes s) {swap : Choice} {k : Bool} (same : swap.isSet = k) :
    (r.exchange swap).Denotes (s.cswap k) := by
  obtain ⟨⟨a, ha, va⟩, ⟨b, hb, vb⟩, ⟨c, hc, vc⟩, ⟨d, hd, vd⟩, owed⟩ := denotes
  obtain ⟨x2, z2, x3, z3, old⟩ := r
  cases ha
  cases hb
  cases hc
  cases hd
  simp only [Rungs.exchange, Fe.swapLimbs_eq, Fe.select_eq, Rfc7748.Ladder.cswap, same]
  cases k with
  | true => exact ⟨⟨c, rfl, vc⟩, ⟨d, rfl, vd⟩, ⟨a, rfl, va⟩, ⟨b, rfl, vb⟩, owed⟩
  | false => exact ⟨⟨a, rfl, va⟩, ⟨b, rfl, vb⟩, ⟨c, rfl, vc⟩, ⟨d, rfl, vd⟩, owed⟩

/-- What the passes keep: under every arithmetic in which what fits is exact, a pass
    leaves limbs within bounds, and they stand for what RFC 7748 computes. -/
theorem Denotes.step (denotes : r.Denotes s) {clamped : Bytes} {k : Nat} (scalar : Bytes.ofLe clamped = k)
    (x1 : Fe) (i : Nat) :
    ∃ r' : Rungs, r'.Denotes (s.step k x1.val i) ∧
      ∀ (m : Type → Type) [Monad m] [LawfulMonad m] [Arithmetic m] [Exact m],
        r.step clamped x1.limbs i = (pure r' : m Rungs) := by
  obtain ⟨bit, hbit⟩ : ∃ bit, bit = Choice.fromBit ((clamped.getD (i >>> 3) 0).toNat >>> (i &&& 7) &&& 1) :=
    ⟨_, rfl⟩
  have set : bit.isSet = k.testBit i := by
    rw [hbit, Choice.isSet_fromBit, Bytes.bit_eq_testBit, scalar]
    cases k.testBit i <;> rfl
  have owed : (r.swap.xor bit).isSet = (s.swap ^^ k.testBit i) := by
    rw [Choice.isSet_xor, denotes.swap, set]
  obtain ⟨⟨x2, h2, v2⟩, ⟨z2, g2, w2⟩, ⟨x3, h3, v3⟩, ⟨z3, g3, w3⟩, -⟩ := denotes.exchange owed
  let da := (x3.sub z3).mul (x2.add z2)
  let cb := (x3.add z3).mul (x2.sub z2)
  let aa := (x2.add z2).square
  let bb := (x2.sub z2).square
  let e := aa.sub bb
  refine ⟨{ x2 := (aa.mul bb).limbs
            z2 := (e.mul (bb.add e.mul121666)).limbs
            x3 := (da.add cb).square.limbs
            z3 := (x1.mul (da.sub cb).square).limbs
            swap := bit }, ⟨⟨_, rfl, ?_⟩, ⟨_, rfl, ?_⟩, ⟨_, rfl, ?_⟩, ⟨_, rfl, ?_⟩, set⟩, fun m _ _ _ _ => ?_⟩
  · simp only [Rfc7748.Ladder.step, aa, bb, Fe.add_val, Fe.sub_val, Fe.mul_val, Fe.square_val, v2, w2]
  · simp only [Rfc7748.Ladder.step, e, aa, bb, Fe.add_val, Fe.sub_val, Fe.mul_val, Fe.square_val,
      Fe.mul121666_val, v2, w2]
    -- `BB + 121666 * E` is `AA + 121665 * E`
    rw [Rfc7748.a24]
    push_cast
    ring
  · simp only [Rfc7748.Ladder.step, da, cb, Fe.add_val, Fe.sub_val, Fe.mul_val, Fe.square_val, v2, w2, v3, w3]
  · simp only [Rfc7748.Ladder.step, da, cb, Fe.add_val, Fe.sub_val, Fe.mul_val, Fe.square_val, v2, w2, v3, w3]
  · simp only [Rungs.step, ← hbit, h2, g2, h3, g3, Fe.add_runs, Fe.sub_runs, Fe.mul_runs, Fe.square_runs,
      Fe.mul121666_runs, pure_bind]
    rfl

/-- Whatever bits the passes are for, and in whatever order. -/
theorem ladder_denotes (scalar point : Vector UInt8 32) (indices : List Nat) :
    ∃ r : Rungs,
      r.Denotes (indices.foldl
        (Rfc7748.Ladder.step (Rfc7748.decodeScalar (Bytes.ofLe scalar.toList)) (Fe.fromBytes point).val)
        { x2 := 1, z2 := 0, x3 := (Fe.fromBytes point).val, z3 := 1, swap := false }) ∧
      ∀ (m : Type → Type) [Monad m] [LawfulMonad m] [Arithmetic m] [Exact m],
        ladder scalar point indices = (pure r : m Rungs) := by
  have passes : ∀ {r : Rungs} {s : Rfc7748.Ladder}, r.Denotes s → ∃ r' : Rungs,
      r'.Denotes (indices.foldl
        (Rfc7748.Ladder.step (Rfc7748.decodeScalar (Bytes.ofLe scalar.toList)) (Fe.fromBytes point).val) s) ∧
      ∀ (m : Type → Type) [Monad m] [LawfulMonad m] [Arithmetic m] [Exact m],
        indices.foldlM (step (clamp scalar).toList (Fe.fromBytes point).limbs) r = (pure r' : m Rungs) := by
    induction indices with
    | nil =>
        intro r s denotes
        exact ⟨r, denotes, fun m _ _ _ _ => rfl⟩
    | cons i rest ih =>
        intro r s denotes
        obtain ⟨next, denotesNext, pass⟩ := denotes.step (ofLe_clamp scalar) (Fe.fromBytes point) i
        obtain ⟨r', denotesLast, runs⟩ := ih denotesNext
        refine ⟨r', denotesLast, fun m _ _ _ _ => ?_⟩
        rw [List.foldlM_cons, pass m, pure_bind, runs m]
  exact passes ⟨⟨Fe.ONE, rfl, Fe.ONE_val⟩, ⟨Fe.ZERO, rfl, Fe.ZERO_val⟩, ⟨_, rfl, rfl⟩,
    ⟨Fe.ONE, rfl, Fe.ONE_val⟩, Choice.isSet_FALSE⟩

end Rungs

/-- Multiply a u-coordinate by a scalar with the Montgomery ladder. -/
def x25519 {m : Type → Type} [Monad m] [Arithmetic m] (scalar point : Vector UInt8 32) : m (Vector UInt8 32) := do
  let s ← Rungs.ladder scalar point (List.range 255).reverse
  let s := s.exchange s.swap
  let u ← s.x2.mulLimbs (← s.z2.invertLimbs)
  return (← u.freeze).pack

/-- Encoding under every arithmetic. -/
theorem Fe.freeze_pack (a : Fe) :
    ∃ bytes : Vector UInt8 32, bytes.toList = Bytes.le 32 a.val.val ∧
      ∀ (m : Type → Type) [Monad m] [LawfulMonad m] [Arithmetic m] [Exact m],
        (do return (← a.limbs.freeze).pack) = (pure bytes : m (Vector UInt8 32)) := by
  obtain ⟨r, reduced, value, runs⟩ := Limbs.freeze_eq (a.reduced.mono (show 2 ^ 51 + 2 ^ 13 ≤ 2 ^ 63 by decide))
  refine ⟨r.pack, ?_, fun m _ _ _ _ => ?_⟩
  · have number : Bytes.ofLe r.pack.toList = a.val.val := by
      rw [Limbs.ofLe_pack reduced, value, Fe.val, ZMod.val_natCast]
    rw [← number]
    exact (r.pack.length_toList ▸ Bytes.le_ofLe r.pack.toList).symm
  · rw [runs m, pure_bind]

/-- X25519 is the function of RFC 7748, for every scalar and every u-coordinate. No sum or
    product on the way exceeds its width, and after any number of passes the limbs are
    within the bounds the next one needs. -/
theorem x25519_eq_rfc7748 (scalar point : Vector UInt8 32) :
    (∃ bytes : Vector UInt8 32, (x25519 scalar point : Option (Vector UInt8 32)) = some bytes ∧
      (x25519 scalar point : Id (Vector UInt8 32)) = bytes ∧
      bytes.toList = Bytes.le 32
        (Rfc7748.x25519 (Bytes.ofLe scalar.toList) (Bytes.ofLe point.toList)).val) ∧
    ∀ passes : Nat, ∃ r : Rungs,
      (Rungs.ladder scalar point ((List.range 255).reverse.take passes) : Option Rungs) = some r ∧
      (Rungs.ladder scalar point ((List.range 255).reverse.take passes) : Id Rungs) = r ∧ r.Bounded := by
  constructor
  · obtain ⟨r, denotes, runs⟩ := Rungs.ladder_denotes scalar point (List.range 255).reverse
    obtain ⟨⟨x2, h2, v2⟩, ⟨z2, g2, w2⟩, -⟩ := denotes.exchange denotes.swap
    obtain ⟨bytes, encoded, packs⟩ := (x2.mul z2.invert).freeze_pack
    have result : ∀ (m : Type → Type) [Monad m] [LawfulMonad m] [Arithmetic m] [Exact m],
        x25519 scalar point = (pure bytes : m (Vector UInt8 32)) := by
      intro m _ _ _ _
      simp only [x25519, runs m, pure_bind, h2, g2, Fe.invert_runs, Fe.mul_runs, packs m]
    refine ⟨bytes, result Option, result Id, ?_⟩
    have u : (Fe.fromBytes point).val = (Bytes.ofLe point.toList % 2 ^ 255 : Nat) := by
      rw [Fe.val, Fe.fromBytes_value]
    rw [encoded, Fe.mul_val, Fe.invert_pow, v2, w2, u, Rfc7748.x25519]
  · intro passes
    obtain ⟨r, denotes, runs⟩ := Rungs.ladder_denotes scalar point ((List.range 255).reverse.take passes)
    exact ⟨r, runs Option, runs Id, denotes.bounded⟩

end Blindplane.Crypto
