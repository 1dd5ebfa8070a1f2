import Blindplane.Crypto.Montgomery
import Blindplane.Crypto.Client
import Blindplane.Lib.DifferentialAddition

/-! # What X25519 computes

On the u-coordinate of a curve point the ladder computes that of a multiple. Public keys are
multiples of the base point, whose order is a prime that no clamped scalar is a multiple
of; so two key pairs arrive at one shared secret, and it is never all zero.
-/

namespace Blindplane.Crypto

open Lib Lib.Arithmetic Lib.TwistedEdwards Curve25519

namespace Rfc7748

theorem coefficient : (1 + d) * a24 = -d := by
  have constant := d_eq
  have unit : (121666 : F) ≠ 0 := by
    intro zero
    rw [zero, zero_mul] at constant
    exact one_ne_zero (α := F) (by linear_combination zero - constant)
  apply mul_left_cancel₀ unit
  rw [a24]
  push_cast
  linear_combination 121666 * constant

/-- The working values, the swap paid, stand for a multiple of a point and the next one. -/
structure Ladder.Holds (s : Ladder) (A : Point) (n : Nat) : Prop where
  lower : (n • A).HasU (s.cswap s.swap).x2 (s.cswap s.swap).z2
  upper : ((n + 1) • A).HasU (s.cswap s.swap).x3 (s.cswap s.swap).z3

/-- One pass takes in one more bit of the scalar. -/
theorem Ladder.Holds.step {s : Ladder} {A : Point} {x1 : F} (base : A.HasU x1 1) (regular : x1 ≠ 0) {k t : Nat}
    (holds : s.Holds A (k >>> (t + 1))) : (s.step k x1 t).Holds A (k >>> t) := by
  obtain ⟨n, split⟩ : ∃ n, k >>> (t + 1) = n := ⟨_, rfl⟩
  have bits : k >>> t = 2 * n + (k.testBit t).toNat := by
    rw [← split, Nat.shiftRight_succ, Nat.testBit, Nat.one_and_eq_mod_two]
    cases parity : (k >>> t) % 2 != 0 <;> simp at parity ⊢ <;> omega
  obtain ⟨lower, upper⟩ := holds
  rw [split] at lower upper
  have paid : s.cswap (s.swap ^^ k.testBit t) = (s.cswap s.swap).cswap (k.testBit t) := by
    cases s.swap <;> cases k.testBit t <;> rfl
  obtain ⟨s', found⟩ : ∃ s', s' = s.cswap s.swap := ⟨_, rfl⟩
  rw [← found] at lower upper paid
  have next : (n + 1) • A - n • A = A := by rw [succ_nsmul, add_sub_cancel_left]
  rw [bits]
  cases bit : k.testBit t with
  | false =>
      rw [bit] at paid
      have doubled := lower.double coefficient
      have added := lower.add upper (next.symm ▸ base) regular
      rw [← two_nsmul, ← mul_nsmul'] at doubled
      rw [← add_nsmul, ← Nat.add_assoc, ← two_mul] at added
      simp only [Ladder.step, paid, bit]
      exact ⟨doubled, added⟩
  | true =>
      rw [bit] at paid
      have doubled := upper.double coefficient
      have back : n • A - (n + 1) • A = -A := by rw [← neg_sub, next]
      have added := upper.add lower (back.symm ▸ base.neg) regular
      rw [← two_nsmul, ← mul_nsmul'] at doubled
      rw [← add_nsmul, Nat.add_right_comm, ← two_mul] at added
      simp only [Ladder.step, paid, bit]
      exact ⟨added, doubled⟩

/-- The passes for the bits below `t`. -/
theorem Ladder.Holds.run {s : Ladder} {A : Point} {x1 : F} (base : A.HasU x1 1) (regular : x1 ≠ 0) {k t : Nat}
    (holds : s.Holds A (k >>> t)) : ((List.range t).reverse.foldl (Ladder.step k x1) s).Holds A k := by
  induction t generalizing s with
  | zero => exact holds
  | succ t ih =>
      rw [List.range_succ, List.reverse_append, List.reverse_singleton, List.singleton_append, List.foldl_cons]
      exact ih (holds.step base regular)

/-- Where the u-coordinate is zero no pass leaves a denominator. -/
theorem Ladder.vanishes {s : Ladder} (low : s.x2 * s.z2 = 0) (high : s.x3 * s.z3 = 0) (k t : Nat) :
    (s.step k 0 t).z2 = 0 ∧ (s.step k 0 t).z3 = 0 := by
  obtain ⟨s', paid⟩ : ∃ s', s' = s.cswap (s.swap ^^ k.testBit t) := ⟨_, rfl⟩
  have product : s'.x2 * s'.z2 = 0 := by
    rw [paid]
    cases s.swap ^^ k.testBit t with
    | false => exact low
    | true => exact high
  have difference : (s'.x2 + s'.z2) ^ 2 - (s'.x2 - s'.z2) ^ 2 = 0 := by linear_combination 4 * product
  simp only [Ladder.step, ← paid, difference, zero_mul, and_self]

theorem Ladder.vanishes_run {s : Ladder} (low : s.x2 * s.z2 = 0) (high : s.x3 * s.z3 = 0) (k : Nat) (bits : List Nat) :
    (bits.foldl (Ladder.step k 0) s).x2 * (bits.foldl (Ladder.step k 0) s).z2 = 0 ∧
      (bits.foldl (Ladder.step k 0) s).x3 * (bits.foldl (Ladder.step k 0) s).z3 = 0 := by
  induction bits generalizing s with
  | nil => exact ⟨low, high⟩
  | cons t rest ih =>
      obtain ⟨z2, z3⟩ := Ladder.vanishes low high k t
      exact ih (by rw [z2, mul_zero]) (by rw [z3, mul_zero])

theorem pow_P_sub_two (z : F) : z ^ (P - 2) = z⁻¹ := by
  by_cases zero : z = 0
  · rw [zero, inv_zero, zero_pow (by norm_num [P])]
  · apply eq_inv_of_mul_eq_one_left
    rw [← pow_succ]
    exact ZMod.pow_card_sub_one_eq_one zero

theorem decodeScalar_lt (n : Nat) : decodeScalar n < 2 ^ 255 := by
  rw [decodeScalar]
  omega

/-- A clamped scalar is a multiple of the cofactor. -/
theorem decodeScalar_eq (n : Nat) : ∃ j, decodeScalar n = 8 * j ∧ 2 ^ 251 ≤ j ∧ j < 2 ^ 252 := by
  rw [decodeScalar]
  exact ⟨2 ^ 251 + n % 2 ^ 254 / 8, by omega, by omega, by omega⟩

/-- On the u-coordinate of a curve point, X25519 is multiplication by the clamped scalar. -/
theorem x25519_of_u (scalar : Nat) {u : Nat} {A : Point} (coordinate : ((u % 2 ^ 255 : Nat) : F) = A.u) :
    x25519 scalar u = (decodeScalar scalar • A).u := by
  have fits : decodeScalar scalar >>> 255 = 0 := by
    rw [Nat.shiftRight_eq_div_pow]
    exact Nat.div_eq_of_lt (decodeScalar_lt scalar)
  simp only [x25519, pow_P_sub_two, coordinate]
  by_cases zero : A.u = 0
  · obtain ⟨j, multiple, -⟩ := decodeScalar_eq scalar
    have neutral : decodeScalar scalar • A = 0 := by
      rw [multiple, show 8 * j = (4 * j) * 2 by ring, mul_nsmul', two_nsmul, Point.double_eq_zero zero, nsmul_zero]
    have exception : (0 : Point).u = 0 := Point.u_eq_zero_iff.mpr (.inr rfl)
    have both := Ladder.vanishes_run (s := { x2 := 1, z2 := 0, x3 := 0, z3 := 1, swap := false }) (mul_zero 1)
      (zero_mul 1) (decodeScalar scalar) (List.range 255).reverse
    rw [neutral, exception, zero]
    obtain ⟨s, run⟩ : ∃ s, s = (List.range 255).reverse.foldl (Ladder.step (decodeScalar scalar) 0)
      { x2 := 1, z2 := 0, x3 := 0, z3 := 1, swap := false } := ⟨_, rfl⟩
    rw [← run] at both ⊢
    have product : (s.cswap s.swap).x2 * (s.cswap s.swap).z2 = 0 := by
      cases s.swap with
      | false => exact both.1
      | true => exact both.2
    rcases mul_eq_zero.mp product with x | z
    · rw [x, zero_mul]
    · rw [z, inv_zero, mul_zero]
  · have finite : A.y ≠ 1 := fun high => zero (Point.u_eq_zero_iff.mpr (.inr high))
    have base := Point.hasU_u finite
    have start : Ladder.Holds { x2 := 1, z2 := 0, x3 := A.u, z3 := 1, swap := false } A
        (decodeScalar scalar >>> 255) := by
      rw [fits]
      constructor
      · rw [zero_nsmul]
        exact Point.hasU_zero one_ne_zero
      · rw [zero_add, one_nsmul]
        exact base
    exact (div_eq_mul_inv _ _).symm.trans (start.run base zero).lower.div_eq

end Rfc7748

section Coordinates

/-- The canonical encoding of the u-coordinate of a point. -/
def CoordinateOf (bytes : Vector UInt8 32) (A : Point) : Prop := bytes.toList = Bytes.le 32 A.u.val

theorem val_lt_two_pow (a : F) : a.val < 2 ^ 255 := (ZMod.val_lt a).trans P_lt_two_pow

theorem CoordinateOf.unique {a b : Vector UInt8 32} {A : Point} (first : CoordinateOf a A) (second : CoordinateOf b A) :
    a = b := Vector.toList_inj.mp (Eq.trans first (Eq.symm second))

theorem CoordinateOf.value {bytes : Vector UInt8 32} {A : Point} (coordinate : CoordinateOf bytes A) :
    Bytes.ofLe bytes.toList = A.u.val := by
  have small := val_lt_two_pow A.u
  rw [CoordinateOf] at coordinate
  rw [coordinate, Bytes.ofLe_le]
  exact Nat.mod_eq_of_lt (small.trans (by norm_num))

theorem CoordinateOf.u_eq_iff {a b : Vector UInt8 32} {A B : Point} (first : CoordinateOf a A)
    (second : CoordinateOf b B) : a = b ↔ A.u = B.u := by
  constructor
  · rintro rfl
    exact ZMod.val_injective P (first.value.symm.trans second.value)
  · intro same
    rw [CoordinateOf, ← same] at second
    exact first.unique second

/-- What the routine returns, as the encoding of what RFC 7748 computes. -/
theorem toList_x25519 (scalar point : Vector UInt8 32) :
    (Crypto.x25519 scalar point : Id (Vector UInt8 32)).toList =
      Bytes.le 32 (Rfc7748.x25519 (Bytes.ofLe scalar.toList) (Bytes.ofLe point.toList)).val := by
  obtain ⟨r, denotes, runs⟩ := Rungs.ladder_denotes scalar point (List.range 255).reverse
  obtain ⟨⟨x2, h2, v2⟩, ⟨z2, g2, w2⟩, -⟩ := denotes.exchange denotes.swap
  obtain ⟨bytes, encoded, packs⟩ := (x2.mul z2.invert).freeze_pack
  have result : (Crypto.x25519 scalar point : Id (Vector UInt8 32)) = bytes := by
    have computed : (Crypto.x25519 scalar point : Id (Vector UInt8 32)) = pure bytes := by
      simp only [Crypto.x25519, runs Id, pure_bind, h2, g2, Fe.invert_runs, Fe.mul_runs, packs Id]
    exact computed
  have u : (Fe.fromBytes point).val = (Bytes.ofLe point.toList % 2 ^ 255 : Nat) := by
    rw [Fe.val, Fe.fromBytes_value]
  rw [result, encoded, Fe.mul_val, Fe.invert_pow, v2, w2, u, Rfc7748.x25519]

/-- X25519 takes the encoding of a point to that of a multiple. -/
theorem CoordinateOf.x25519 {point : Vector UInt8 32} {A : Point} (coordinate : CoordinateOf point A)
    (scalar : Vector UInt8 32) :
    CoordinateOf (Crypto.x25519 scalar point : Id (Vector UInt8 32)) (Bytes.ofLe (clamp scalar).toList • A) := by
  have small := val_lt_two_pow A.u
  have masked : ((Bytes.ofLe point.toList % 2 ^ 255 : Nat) : F) = A.u := by
    rw [coordinate.value, Nat.mod_eq_of_lt small, ZMod.natCast_zmod_val]
  rw [CoordinateOf, toList_x25519, Rfc7748.x25519_of_u _ masked, ofLe_clamp, Rfc7748.decodeScalar]

/-- The base point of both curves is one: `u = 9` where `y = 4/5`. -/
theorem u_B : B.u = 9 := by
  have multiple : ((5 * yResidue + (P - 4) : Nat) : F) = 0 := cast_eq_zero (by norm_num [yResidue, P])
  rw [Nat.cast_add, Nat.cast_sub (by norm_num [P]), CharP.cast_eq_zero F P] at multiple
  push_cast at multiple
  have y : 5 * B.y = 4 := by
    show 5 * (yResidue : F) = 4
    linear_combination multiple
  have denominator : 1 - B.y ≠ 0 := by
    intro zero
    exact one_ne_zero (α := F) (by linear_combination y + 5 * zero)
  rw [Point.u, div_eq_iff denominator]
  linear_combination 2 * y

theorem coordinateOf_BASEPOINT : CoordinateOf BASEPOINT B := by
  have nine : (9 : F).val = 9 := ZMod.val_natCast_of_lt (show 9 < P by norm_num [P])
  rw [CoordinateOf, u_B, nine]
  decide

end Coordinates

section Agreement

variable (ours theirs : Vector UInt8 32)

/-- The multiple of the base point behind a public key. -/
theorem coordinateOf_publicKey (secret : Vector UInt8 32) :
    CoordinateOf (x25519 secret BASEPOINT : Id (Vector UInt8 32)) (Bytes.ofLe (clamp secret).toList • B) :=
  coordinateOf_BASEPOINT.x25519 secret

/-- Multiples of the base point by a number that its order does not divide. -/
theorem u_nsmul_B_ne_zero {n : Nat} (apart : ¬ L ∣ n) : (n • B).u ≠ 0 := by
  intro zero
  have double := Point.double_eq_zero zero
  rw [← two_nsmul, ← mul_nsmul', ← addOrderOf_dvd_iff_nsmul_eq_zero, addOrderOf_B] at double
  cases L_prime.dvd_mul.mp double with
  | inl two => exact absurd (Nat.le_of_dvd (by decide) two) (by have := two_pow_lt_L; omega)
  | inr here => exact apart here

/-- The order of the base point divides no clamped scalar. -/
theorem not_dvd_clamp (secret : Vector UInt8 32) : ¬ L ∣ Bytes.ofLe (clamp secret).toList := by
  obtain ⟨j, value, above, below⟩ := clamp_value secret
  have order := two_pow_lt_L
  rw [value]
  intro divides
  cases L_prime.dvd_mul.mp divides with
  | inl cofactor => exact absurd (Nat.le_of_dvd (by decide) cofactor) (by omega)
  | inr scalar => exact absurd (Nat.le_of_dvd (by omega) scalar) (by omega)

theorem zero_coordinate {bytes : Vector UInt8 32} {A : Point} (coordinate : CoordinateOf bytes A)
    (zero : bytes = .replicate 32 0) : A.u = 0 := by
  have value := coordinate.value
  have vanishes : Bytes.ofLe (Vector.replicate 32 (0 : UInt8)).toList = 0 := by decide
  rw [zero, vanishes] at value
  exact (ZMod.val_eq_zero A.u).mp value.symm

/-- Either side of an agreement comes to the multiple by both scalars. -/
theorem coordinateOf_shared :
    CoordinateOf (x25519 ours (x25519 theirs BASEPOINT : Id (Vector UInt8 32)) : Id (Vector UInt8 32))
      ((Bytes.ofLe (clamp ours).toList * Bytes.ofLe (clamp theirs).toList) • B) := by
  rw [mul_nsmul']
  exact (coordinateOf_publicKey theirs).x25519 ours

theorem shared_comm :
    (x25519 ours (x25519 theirs BASEPOINT : Id (Vector UInt8 32)) : Id (Vector UInt8 32)) =
      x25519 theirs (x25519 ours BASEPOINT : Id (Vector UInt8 32)) := by
  have other := coordinateOf_shared theirs ours
  rw [Nat.mul_comm] at other
  exact (coordinateOf_shared ours theirs).unique other

/-- The order of the base point is prime, and divides neither scalar. -/
theorem shared_ne_zero :
    (x25519 ours (x25519 theirs BASEPOINT : Id (Vector UInt8 32)) : Id (Vector UInt8 32)) ≠ .replicate 32 0 := by
  intro zero
  have neither : ¬ L ∣ Bytes.ofLe (clamp ours).toList * Bytes.ofLe (clamp theirs).toList := by
    rw [L_prime.dvd_mul]
    exact not_or.mpr ⟨not_dvd_clamp ours, not_dvd_clamp theirs⟩
  exact u_nsmul_B_ne_zero neither (zero_coordinate (coordinateOf_shared ours theirs) zero)

/-- Clamped scalars with one u-coordinate are equal, or opposite modulo the group order. -/
theorem clamp_eq_or_opposite
    (same : (Bytes.ofLe (clamp ours).toList • B).u = (Bytes.ofLe (clamp theirs).toList • B).u) :
    Bytes.ofLe (clamp ours).toList = Bytes.ofLe (clamp theirs).toList ∨
      Bytes.ofLe (clamp ours).toList + Bytes.ofLe (clamp theirs).toList = 8 * L := by
  obtain ⟨j, ourValue, -, ourBound⟩ := clamp_value ours
  obtain ⟨k, theirValue, positive, theirBound⟩ := clamp_value theirs
  have order := two_pow_lt_L
  have coprime : Nat.Coprime L 8 := (Nat.coprime_primes L_prime Nat.prime_two).mpr (by omega) |>.pow_right 3
  have regular := u_nsmul_B_ne_zero (not_dvd_clamp ours)
  rw [ourValue, theirValue] at same ⊢
  rw [ourValue] at regular
  rcases Point.eq_or_eq_neg_of_u same regular with equal | opposite
  · rw [nsmul_B_eq_iff] at equal
    have cancelled : j ≡ k [MOD L] := Nat.ModEq.cancel_left_of_coprime coprime equal
    have numbers : j = k := Nat.ModEq.eq_of_lt_of_lt cancelled (by omega) (by omega)
    exact .inl (by rw [numbers])
  · rw [eq_neg_iff_add_eq_zero, ← add_nsmul, ← Nat.mul_add, ← addOrderOf_dvd_iff_nsmul_eq_zero, addOrderOf_B]
      at opposite
    obtain ⟨multiple, sum⟩ := coprime.dvd_of_dvd_mul_left opposite
    have one : multiple = 1 := by
      rcases Nat.lt_or_ge multiple 2 with low | high
      · interval_cases multiple <;> omega
      · have large : L * 2 ≤ L * multiple := Nat.mul_le_mul_left L high
        omega
    rw [one] at sum
    exact .inr (by omega)

/-- Two secrets arrive at one shared secret, each from the other's public key, and it is
    never all zero. They share a public key exactly when what clamping leaves of them is the
    same or adds up to zero in the group. -/
theorem key_agreement :
    let publicKey (secret : Vector UInt8 32) : Vector UInt8 32 := (x25519 secret BASEPOINT : Id (Vector UInt8 32))
    (x25519 ours (publicKey theirs) : Id (Vector UInt8 32)) = x25519 theirs (publicKey ours) ∧
    (x25519 ours (publicKey theirs) : Id (Vector UInt8 32)) ≠ .replicate 32 0 ∧
    (publicKey ours = publicKey theirs ↔ clamp ours = clamp theirs ∨
      Bytes.ofLe (clamp ours).toList + Bytes.ofLe (clamp theirs).toList = 8 * L) := by
  intro publicKey
  refine ⟨shared_comm ours theirs, shared_ne_zero ours theirs, ?_⟩
  rw [(coordinateOf_publicKey ours).u_eq_iff (coordinateOf_publicKey theirs)]
  constructor
  · intro same
    refine (clamp_eq_or_opposite ours theirs same).imp_left fun equal => ?_
    have lengths : (clamp ours).toList.length = (clamp theirs).toList.length := by
      rw [Vector.length_toList, Vector.length_toList]
    exact Vector.toList_inj.mp ((Bytes.ofLe_inj lengths).mp equal)
  · rintro (equal | opposite)
    · rw [equal]
    · have neutral : (Bytes.ofLe (clamp ours).toList + Bytes.ofLe (clamp theirs).toList) • B = 0 := by
        rw [opposite, mul_nsmul', L_nsmul_B, nsmul_zero]
      rw [add_nsmul] at neutral
      rw [eq_neg_of_add_eq_zero_left neutral]
      rfl

end Agreement

end Blindplane.Crypto
