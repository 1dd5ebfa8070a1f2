import Blindplane.Crypto.Choice
import Blindplane.Crypto.Clamp
import Blindplane.Crypto.Field.Element
import Blindplane.Lib.LittleEndian

/-! # Byte encoding, selection, and square roots

An element is written as the canonical number below `p` of its residue, so two elements
are equal in the field exactly when their bytes are. Square roots come with a flag, and
the flag is set exactly when there is a root.
-/

namespace Blindplane.Crypto

open Lib Lib.Arithmetic Curve25519

namespace Limbs

section Routines

variable {m : Type → Type} [Monad m] [Arithmetic m]

/-- Fully reduce modulo `p`. -/
def freeze (l : Limbs) : m Limbs := do
  let limbs ← l.weakReduce
  -- `self + 19` shows at the top limb whether the value is at least `p`
  let q := (← add 64 limbs.f0 19) >>> 51
  let q := (← add 64 limbs.f1 q) >>> 51
  let q := (← add 64 limbs.f2 q) >>> 51
  let q := (← add 64 limbs.f3 q) >>> 51
  let q := (← add 64 limbs.f4 q) >>> 51
  let f0 ← add 64 limbs.f0 (← mul 64 19 q)
  let f1 ← add 64 limbs.f1 (f0 >>> 51)
  let f2 ← add 64 limbs.f2 (f1 >>> 51)
  let f3 ← add 64 limbs.f3 (f2 >>> 51)
  let f4 ← add 64 limbs.f4 (f3 >>> 51)
  return { f0 := f0 &&& MASK51, f1 := f1 &&& MASK51, f2 := f2 &&& MASK51, f3 := f3 &&& MASK51
           f4 := f4 &&& MASK51 }

end Routines

/-- Adding 19 overflows 255 bits exactly when `p` is to be subtracted. -/
private theorem add_19_mod {v : Nat} (below : v < 2 ^ 255 + 2 ^ 220) :
    (v + 19 * ((v + 19) / 2 ^ 255)) % 2 ^ 255 = v % P := by
  unfold P
  rcases Nat.lt_or_ge v (2 ^ 255 - 19) with canonical | above
  · have kept : (v + 19) / 2 ^ 255 = 0 := by omega
    rw [kept, Nat.mod_eq_of_lt canonical]
    omega
  · have dropped : (v + 19) / 2 ^ 255 = 1 := by omega
    have remainder : v % (2 ^ 255 - 19) = v - (2 ^ 255 - 19) := by
      rw [Nat.mod_eq_sub_mod above, Nat.mod_eq_of_lt (by omega)]
    rw [dropped, remainder]
    omega

/-- The carries of adding 19 decide whether `p` is subtracted. -/
theorem freeze_eq {l : Limbs} (below : l.Below (2 ^ 63)) :
    ∃ r : Limbs, r.Below (2 ^ 51) ∧ r.value = l.value % P ∧
      ∀ (m : Type → Type) [Monad m] [LawfulMonad m] [Arithmetic m] [Exact m], l.freeze = (pure r : m Limbs) := by
  obtain ⟨w, ⟨h0, h1, h2, h3, h4⟩, value, runs⟩ := weakReduce_computes below
  obtain ⟨q0, e0⟩ : ∃ q0, q0 = (w.f0 + 19) / 2 ^ 51 := ⟨_, rfl⟩
  obtain ⟨q1, e1⟩ : ∃ q1, q1 = (w.f1 + q0) / 2 ^ 51 := ⟨_, rfl⟩
  obtain ⟨q2, e2⟩ : ∃ q2, q2 = (w.f2 + q1) / 2 ^ 51 := ⟨_, rfl⟩
  obtain ⟨q3, e3⟩ : ∃ q3, q3 = (w.f3 + q2) / 2 ^ 51 := ⟨_, rfl⟩
  obtain ⟨q, e4⟩ : ∃ q, q = (w.f4 + q3) / 2 ^ 51 := ⟨_, rfl⟩
  obtain ⟨t0, d0⟩ : ∃ t0, t0 = w.f0 + 19 * q := ⟨_, rfl⟩
  obtain ⟨t1, d1⟩ : ∃ t1, t1 = w.f1 + t0 / 2 ^ 51 := ⟨_, rfl⟩
  obtain ⟨t2, d2⟩ : ∃ t2, t2 = w.f2 + t1 / 2 ^ 51 := ⟨_, rfl⟩
  obtain ⟨t3, d3⟩ : ∃ t3, t3 = w.f3 + t2 / 2 ^ 51 := ⟨_, rfl⟩
  obtain ⟨t4, d4⟩ : ∃ t4, t4 = w.f4 + t3 / 2 ^ 51 := ⟨_, rfl⟩
  have bit : q ≤ 1 := by omega
  refine ⟨⟨t0 % 2 ^ 51, t1 % 2 ^ 51, t2 % 2 ^ 51, t3 % 2 ^ 51, t4 % 2 ^ 51⟩, ?_, ?_,
    fun m _ _ _ _ => ?_⟩
  · constructor <;> exact Nat.mod_lt _ (by decide)
  · have same : w.value % P = l.value % P := (ZMod.natCast_eq_natCast_iff' _ _ _).mp value
    have chain : q = (w.value + 19) / 2 ^ 255 := by
      simp only [Limbs.value]
      omega
    have digits : Limbs.value ⟨t0 % 2 ^ 51, t1 % 2 ^ 51, t2 % 2 ^ 51, t3 % 2 ^ 51, t4 % 2 ^ 51⟩ =
        (w.value + 19 * q) % 2 ^ 255 := by
      simp only [Limbs.value]
      omega
    have top : w.value < 2 ^ 255 + 2 ^ 220 := by
      simp only [Limbs.value]
      omega
    rw [digits, chain, add_19_mod top, same]
  · simp only [freeze, MASK51, and_mask, Nat.shiftRight_eq_div_pow]
    have reduces : (l.weakReduce : m Limbs) = pure w := runs m
    rw [reduces, pure_bind, add_eq (by omega), pure_bind, ← e0, add_eq (by omega), pure_bind, ← e1,
      add_eq (by omega), pure_bind, ← e2, add_eq (by omega), pure_bind, ← e3, add_eq (by omega),
      pure_bind, ← e4, mul_eq (by omega), pure_bind, add_eq (by omega), pure_bind, ← d0,
      add_eq (by omega), pure_bind, ← d1, add_eq (by omega), pure_bind, ← d2, add_eq (by omega),
      pure_bind, ← d3, add_eq (by omega), pure_bind, ← d4]

/-- Serialize 51-bit limbs to 32 little-endian bytes. -/
def pack (limbs : Limbs) : Vector UInt8 32 :=
  let w0 := limbs.f0 ||| (limbs.f1 <<< 51) % 2 ^ 64
  let w1 := (limbs.f1 >>> 13) ||| (limbs.f2 <<< 38) % 2 ^ 64
  let w2 := (limbs.f2 >>> 26) ||| (limbs.f3 <<< 25) % 2 ^ 64
  let w3 := (limbs.f3 >>> 39) ||| (limbs.f4 <<< 12) % 2 ^ 64
  ⟨([w0, w1, w2, w3].flatMap (Bytes.le 8)).toArray, by simp⟩

theorem pack_toList (limbs : Limbs) :
    limbs.pack.toList =
      [limbs.f0 ||| (limbs.f1 <<< 51) % 2 ^ 64, (limbs.f1 >>> 13) ||| (limbs.f2 <<< 38) % 2 ^ 64,
        (limbs.f2 >>> 26) ||| (limbs.f3 <<< 25) % 2 ^ 64,
        (limbs.f3 >>> 39) ||| (limbs.f4 <<< 12) % 2 ^ 64].flatMap (Bytes.le 8) := by
  simp only [pack, Vector.toList_mk]

theorem ofLe_pack {limbs : Limbs} (below : limbs.Below (2 ^ 51)) :
    Bytes.ofLe limbs.pack.toList = limbs.value := by
  obtain ⟨h0, h1, h2, h3, h4⟩ := below
  have w0 : limbs.f0 ||| (limbs.f1 <<< 51) % 2 ^ 64 = limbs.f0 + limbs.f1 % 2 ^ 13 * 2 ^ 51 :=
    or_shiftLeft_mod (by omega) (by decide)
  have w1 : (limbs.f1 >>> 13) ||| (limbs.f2 <<< 38) % 2 ^ 64 =
      limbs.f1 / 2 ^ 13 + limbs.f2 % 2 ^ 26 * 2 ^ 38 := by
    rw [Nat.shiftRight_eq_div_pow]
    exact or_shiftLeft_mod (by omega) (by decide)
  have w2 : (limbs.f2 >>> 26) ||| (limbs.f3 <<< 25) % 2 ^ 64 =
      limbs.f2 / 2 ^ 26 + limbs.f3 % 2 ^ 39 * 2 ^ 25 := by
    rw [Nat.shiftRight_eq_div_pow]
    exact or_shiftLeft_mod (by omega) (by decide)
  have w3 : (limbs.f3 >>> 39) ||| (limbs.f4 <<< 12) % 2 ^ 64 =
      limbs.f3 / 2 ^ 39 + limbs.f4 % 2 ^ 52 * 2 ^ 12 := by
    rw [Nat.shiftRight_eq_div_pow]
    exact or_shiftLeft_mod (by omega) (by decide)
  rw [pack_toList, w0, w1, w2, w3, Bytes.ofLe_flatMap_le, Bytes.word_base]
  · rw [value, Nat.ofDigits_cons, Nat.ofDigits_cons, Nat.ofDigits_cons, Nat.ofDigits_cons,
      Nat.ofDigits_nil]
    omega
  · rw [Bytes.word_base]
    simp only [List.forall_mem_cons, List.not_mem_nil, false_implies, implies_true, and_true]
    omega

/-- Fully reduce modulo `p` and serialize to 32 little-endian bytes. -/
def toBytes (l : Limbs) : Vector UInt8 32 :=
  let limbs : Id Limbs := l.freeze
  limbs.run.pack

/-- Limbs need not be weakly reduced to be encoded; it is enough that they carry. -/
theorem ofLe_toBytes {l : Limbs} (below : l.Below (2 ^ 63)) : Bytes.ofLe l.toBytes.toList = l.value % P := by
  obtain ⟨r, reduced, value, runs⟩ := freeze_eq below
  have bytes : l.toBytes = r.pack := congrArg pack (runs Id)
  rw [bytes, ofLe_pack reduced, value]

/-- Whether the canonical encoding has its low bit set. -/
def isNegative (l : Limbs) : Choice := .fromBit (l.toBytes.get ⟨0, first_byte_lt⟩ &&& 1).toNat

/-- Whether the limbs stand for zero. -/
def isZero (l : Limbs) : Choice := ctEqBytes l.toBytes.toList (List.replicate 32 0)

/-- Whether two numbers are equal modulo `p`. -/
def ctEq (l r : Limbs) : Choice := ctEqBytes l.toBytes.toList r.toBytes.toList

section Residues

variable {l r : Limbs}

/-- Limbs have the same bytes when they are equal modulo `p`. -/
theorem toBytes_inj (hl : l.Below (2 ^ 63)) (hr : r.Below (2 ^ 63)) :
    l.toBytes = r.toBytes ↔ l.value % P = r.value % P := by
  rw [← ofLe_toBytes hl, ← ofLe_toBytes hr, Bytes.ofLe_inj (by rw [Vector.length_toList, Vector.length_toList]),
    Vector.toList_inj]

theorem isSet_isNegative (below : l.Below (2 ^ 63)) : l.isNegative.isSet = decide (l.value % P % 2 = 1) := by
  obtain ⟨first, rest, bytes⟩ := List.exists_cons_of_length_eq_add_one l.toBytes.length_toList
  have number := ofLe_toBytes below
  have head : l.toBytes.toList[0]? = some (l.toBytes.get ⟨0, first_byte_lt⟩) := by
    rw [Vector.getElem?_toList]
    exact Vector.getElem?_eq_getElem first_byte_lt
  rw [bytes, List.getElem?_cons_zero, Option.some.injEq] at head
  rw [bytes, Bytes.ofLe_cons, head] at number
  rw [isNegative, Choice.isSet_fromBit, UInt8.toNat_and, UInt8.toNat_one, Nat.and_one_is_mod]
  apply Bool.decide_congr
  omega

theorem isSet_isZero (below : l.Below (2 ^ 63)) : l.isZero.isSet = decide (l.value % P = 0) := by
  have zeros : Bytes.ofLe (List.replicate 32 0) = 0 := by decide
  rw [isZero, isSet_ctEqBytes]
  apply Bool.decide_congr
  rw [← Bytes.ofLe_inj (by rw [Vector.length_toList, List.length_replicate]), ofLe_toBytes below, zeros]

theorem isSet_ctEq (hl : l.Below (2 ^ 63)) (hr : r.Below (2 ^ 63)) :
    (l.ctEq r).isSet = decide (l.value % P = r.value % P) := by
  rw [ctEq, isSet_ctEqBytes]
  apply Bool.decide_congr
  rw [Vector.toList_inj, toBytes_inj hl hr]

end Residues

theorem Below.mono {bound bound' : Nat} {l : Limbs} (below : l.Below bound) (le : bound ≤ bound') :
    l.Below bound' :=
  ⟨below.f0.trans_le le, below.f1.trans_le le, below.f2.trans_le le, below.f3.trans_le le, below.f4.trans_le le⟩

end Limbs

namespace Fe

/-- Read eight little-endian bytes starting at `offset`. -/
def loadLe64 (bytes : Vector UInt8 32) (offset : Nat) : Nat :=
  Bytes.ofLe ((bytes.toList.drop offset).take 8)

/-- Load a field element from 32 little-endian bytes, ignoring bit 255. -/
def fromBytes (bytes : Vector UInt8 32) : Fe :=
  let w0 := loadLe64 bytes 0
  let w1 := loadLe64 bytes 8
  let w2 := loadLe64 bytes 16
  let w3 := loadLe64 bytes 24
  { limbs :=
      { f0 := w0 &&& MASK51
        f1 := ((w0 >>> 51) ||| (w1 <<< 13) % 2 ^ 64) &&& MASK51
        f2 := ((w1 >>> 38) ||| (w2 <<< 26) % 2 ^ 64) &&& MASK51
        f3 := ((w2 >>> 25) ||| (w3 <<< 39) % 2 ^ 64) &&& MASK51
        f4 := (w3 >>> 12) &&& MASK51 }
    reduced := by
      have below : ∀ n, n &&& MASK51 < 2 ^ 51 + 2 ^ 13 := fun n =>
        Nat.lt_of_le_of_lt Nat.and_le_right (by decide)
      constructor <;> exact below _ }

theorem fromBytes_value (bytes : Vector UInt8 32) :
    (fromBytes bytes).limbs.value = Bytes.ofLe bytes.toList % 2 ^ 255 := by
  have whole := Bytes.ofDigits_words (show bytes.toList.length = 8 * 4 from bytes.length_toList)
  have words : Bytes.words 8 4 bytes.toList =
      [loadLe64 bytes 0, loadLe64 bytes 8, loadLe64 bytes 16, loadLe64 bytes 24] := by
    simp only [Bytes.words, loadLe64, List.drop_zero, List.drop_drop]
  have fits : ∀ word ∈ Bytes.words 8 4 bytes.toList, word < 256 ^ 8 := fun _ => Bytes.lt_of_mem_words
  rw [words, Bytes.word_base] at whole
  rw [words, Bytes.word_base] at fits
  simp only [List.forall_mem_cons] at fits
  obtain ⟨h0, h1, h2, h3, -⟩ := fits
  rw [← whole, Nat.ofDigits_cons, Nat.ofDigits_cons, Nat.ofDigits_cons, Nat.ofDigits_cons,
    Nat.ofDigits_nil]
  simp only [fromBytes, Limbs.value, MASK51, and_mask, Nat.shiftRight_eq_div_pow]
  rw [@or_shiftLeft_mod _ _ 51 13 64 (by omega) (by decide),
    @or_shiftLeft_mod _ _ 38 26 64 (by omega) (by decide),
    @or_shiftLeft_mod _ _ 25 39 64 (by omega) (by decide)]
  omega

/-- Fully reduce modulo `p` and serialize to 32 little-endian bytes. -/
def toBytes (a : Fe) : Vector UInt8 32 := a.limbs.toBytes

theorem ofLe_toBytes (a : Fe) : Bytes.ofLe a.toBytes.toList = a.val.val := by
  rw [toBytes, Limbs.ofLe_toBytes (a.reduced.mono (by decide)), val, ZMod.val_natCast]

/-- Elements have the same bytes when they are equal in the field. -/
theorem toBytes_inj {a b : Fe} : a.toBytes = b.toBytes ↔ a.val = b.val := by
  rw [← ZMod.val_injective P |>.eq_iff, ← ofLe_toBytes, ← ofLe_toBytes,
    Bytes.ofLe_inj (by rw [Vector.length_toList, Vector.length_toList]), Vector.toList_inj]

/-- Select limb by limb. -/
def selectLimbs (a b : Limbs) (choice : Choice) : Limbs where
  f0 := choice.selectWord a.f0 b.f0
  f1 := choice.selectWord a.f1 b.f1
  f2 := choice.selectWord a.f2 b.f2
  f3 := choice.selectWord a.f3 b.f3
  f4 := choice.selectWord a.f4 b.f4

/-- Return `b` when `choice` is set and `a` otherwise, without branching. -/
def select (a b : Fe) (choice : Choice) : Fe where
  limbs := selectLimbs a.limbs b.limbs choice
  reduced := by
    have word : ∀ {x y : Nat}, x < 2 ^ 51 + 2 ^ 13 → y < 2 ^ 51 + 2 ^ 13 →
        choice.selectWord x y < 2 ^ 51 + 2 ^ 13 := by
      intro x y hx hy
      rw [Choice.selectWord_eq (by omega) (by omega)]
      split
      · exact hy
      · exact hx
    obtain ⟨a0, a1, a2, a3, a4⟩ := a.reduced
    obtain ⟨b0, b1, b2, b3, b4⟩ := b.reduced
    exact ⟨word a0 b0, word a1 b1, word a2 b2, word a3 b3, word a4 b4⟩

theorem select_eq (a b : Fe) (choice : Choice) : select a b choice = if choice.isSet then b else a := by
  have word : ∀ {x y : Nat}, x < 2 ^ 51 + 2 ^ 13 → y < 2 ^ 51 + 2 ^ 13 →
      choice.selectWord x y = if choice.isSet then y else x := fun hx hy =>
    Choice.selectWord_eq (by omega) (by omega)
  apply Fe.ext
  simp only [select, selectLimbs, word a.reduced.f0 b.reduced.f0, word a.reduced.f1 b.reduced.f1,
    word a.reduced.f2 b.reduced.f2, word a.reduced.f3 b.reduced.f3, word a.reduced.f4 b.reduced.f4]
  cases choice.isSet <;> rfl

/-- Exchange the limbs of `a` and `b` when `choice` is set, without branching. -/
def swapLimbs (a b : Limbs) (choice : Choice) : Limbs × Limbs :=
  let (a0, b0) := choice.swapWords a.f0 b.f0
  let (a1, b1) := choice.swapWords a.f1 b.f1
  let (a2, b2) := choice.swapWords a.f2 b.f2
  let (a3, b3) := choice.swapWords a.f3 b.f3
  let (a4, b4) := choice.swapWords a.f4 b.f4
  (⟨a0, a1, a2, a3, a4⟩, ⟨b0, b1, b2, b3, b4⟩)

theorem swapLimbs_eq (a b : Fe) (choice : Choice) :
    swapLimbs a.limbs b.limbs choice = ((select a b choice).limbs, (select b a choice).limbs) := by
  simp only [swapLimbs, Choice.swapWords_eq]
  rfl

/-- Exchange `a` and `b` when `choice` is set, without branching. -/
def conditionalSwap (a b : Fe) (choice : Choice) : Fe × Fe :=
  ({ limbs := (swapLimbs a.limbs b.limbs choice).1
     reduced := by rw [swapLimbs_eq]; exact (select a b choice).reduced },
    { limbs := (swapLimbs a.limbs b.limbs choice).2
      reduced := by rw [swapLimbs_eq]; exact (select b a choice).reduced })

theorem conditionalSwap_eq (a b : Fe) (choice : Choice) :
    conditionalSwap a b choice = if choice.isSet then (b, a) else (a, b) := by
  have swapped : conditionalSwap a b choice = (select a b choice, select b a choice) := by
    simp only [conditionalSwap, swapLimbs_eq]
  rw [swapped, select_eq, select_eq]
  split <;> rfl

/-- Replace `self` with its negation when `choice` is set. -/
def conditionalNegate (a : Fe) (choice : Choice) : Fe := select a a.neg choice

/-- Whether the canonical encoding has its low bit set. -/
def isNegative (a : Fe) : Choice := a.limbs.isNegative

/-- Whether this element is zero. -/
def isZero (a : Fe) : Choice := a.limbs.isZero

/-- Whether two elements are equal modulo `p`. -/
def ctEq (a b : Fe) : Choice := a.limbs.ctEq b.limbs

@[simp] theorem select_val (a b : Fe) (choice : Choice) :
    (select a b choice).val = if choice.isSet then b.val else a.val := by
  rw [select_eq]
  exact apply_ite val _ _ _

@[simp] theorem conditionalNegate_val (a : Fe) (choice : Choice) :
    (a.conditionalNegate choice).val = if choice.isSet then -a.val else a.val := by
  rw [conditionalNegate, select_val, neg_val]

@[simp] theorem isSet_isNegative (a : Fe) : a.isNegative.isSet = decide (a.val.val % 2 = 1) := by
  rw [isNegative, Limbs.isSet_isNegative (a.reduced.mono (by decide)), val, ZMod.val_natCast]

@[simp] theorem isSet_isZero (a : Fe) : a.isZero.isSet = decide (a.val = 0) := by
  rw [isZero, Limbs.isSet_isZero (a.reduced.mono (by decide)), val]
  apply Bool.decide_congr
  rw [← ZMod.val_eq_zero, ZMod.val_natCast]

@[simp] theorem isSet_ctEq (a b : Fe) : (a.ctEq b).isSet = decide (a.val = b.val) := by
  rw [ctEq, Limbs.isSet_ctEq (a.reduced.mono (by decide)) (b.reduced.mono (by decide)), val, val]
  apply Bool.decide_congr
  exact (ZMod.natCast_eq_natCast_iff' _ _ P).symm

/-- Encoding is canonical: bytes stand for residues, and back for numbers below `p`. The
    bound is on the limbs alone, whether or not they come from carrying. -/
theorem encoding_canonical :
    (∀ l : Limbs, l.Below (2 ^ 52) → Bytes.ofLe l.toBytes.toList = l.value % P ∧
      ∃ r : Limbs, (l.freeze : Option Limbs) = some r ∧ l.toBytes = r.pack) ∧
    (∀ l r : Limbs, l.Below (2 ^ 52) → r.Below (2 ^ 52) →
      (l.toBytes = r.toBytes ↔ l.value % P = r.value % P)) ∧
    (∀ l r : Limbs, l.Below (2 ^ 52) → r.Below (2 ^ 52) → l.value % P = r.value % P →
      l.isZero = r.isZero ∧ l.isNegative = r.isNegative ∧
        ∀ other : Limbs, l.ctEq other = r.ctEq other ∧ other.ctEq l = other.ctEq r) ∧
    (∀ b : Vector UInt8 32, (fromBytes b).toBytes = b ↔
      (Bytes.ofLe b.toList).testBit 255 = false ∧ Bytes.ofLe b.toList < P) := by
  have wide : ∀ l : Limbs, l.Below (2 ^ 52) → l.Below (2 ^ 63) := fun l below => below.mono (by decide)
  refine ⟨fun l below => ⟨Limbs.ofLe_toBytes (wide l below), ?_⟩,
    fun l r hl hr => Limbs.toBytes_inj (wide l hl) (wide r hr), fun l r hl hr same => ?_, fun b => ?_⟩
  · obtain ⟨r, -, -, runs⟩ := Limbs.freeze_eq (wide l below)
    exact ⟨r, runs Option, congrArg Limbs.pack (runs Id)⟩
  · have bytes := (Limbs.toBytes_inj (wide l hl) (wide r hr)).mpr same
    refine ⟨?_, ?_, fun other => ⟨?_, ?_⟩⟩
    · rw [Limbs.isZero, Limbs.isZero, bytes]
    · rw [Limbs.isNegative, Limbs.isNegative, bytes]
    · rw [Limbs.ctEq, Limbs.ctEq, bytes]
    · rw [Limbs.ctEq, Limbs.ctEq, bytes]
  · have order := P_lt_two_pow
    have number : Bytes.ofLe (fromBytes b).toBytes.toList = Bytes.ofLe b.toList % 2 ^ 255 % P := by
      rw [ofLe_toBytes, val, fromBytes_value, ZMod.val_natCast]
    rw [← Vector.toList_inj, ← Bytes.ofLe_inj (by rw [Vector.length_toList, Vector.length_toList]), number]
    constructor
    · intro same
      have below : Bytes.ofLe b.toList < P := same ▸ Nat.mod_lt _ P_prime.pos
      exact ⟨Nat.testBit_lt_two_pow (below.trans order), below⟩
    · intro ⟨_, below⟩
      rw [Nat.mod_eq_of_lt (below.trans order), Nat.mod_eq_of_lt below]

section SquareRoots

/-- Square root of `u/v`, if one exists: the candidate root together with a flag saying
    whether it really squares to `u/v`. -/
def sqrtRatio (u v : Fe) : Fe × Choice :=
  let v3 := v.square.mul v
  let v7 := v3.square.mul v
  let root := (u.mul v3).mul (u.mul v7).powP58
  let check := v.mul root.square
  let correct := check.ctEq u
  let flipped := check.ctEq u.neg
  let rootTimesI := root.mul SQRT_M1
  let root := select root rootTimesI flipped
  let root := root.conditionalNegate root.isNegative
  (root, correct.or flipped)

/-- The candidate squares to `u/v` up to a fourth root of unity. -/
private theorem candidate_sq (u v : F) :
    v * (u * v ^ 3 * (u * v ^ 7) ^ ((P - 5) / 8)) ^ 2 = u * (u * v ^ 7) ^ ((P - 1) / 4) := by
  have exponent : (P - 1) / 4 = (P - 5) / 8 * 2 + 1 := by norm_num [P]
  rw [exponent]
  generalize (P - 5) / 8 = e
  ring

/-- Of a residue and its opposite, unless both are zero, exactly one is odd. -/
theorem neg_parity {x : F} (nonzero : x ≠ 0) : (-x).val % 2 = 1 ↔ x.val % 2 = 0 := by
  have below := ZMod.val_lt x
  have odd : P % 2 = 1 := by norm_num [P]
  rw [ZMod.neg_val, if_neg nonzero]
  omega

/-- The even one of two opposite residues. -/
theorem even_negate (x : F) : (if x.val % 2 = 1 then -x else x).val % 2 = 0 := by
  split
  · next odd =>
    have nonzero : x ≠ 0 := by
      intro zero
      rw [zero, ZMod.val_zero] at odd
      cases odd
    have same := neg_parity nonzero
    omega
  · next even => omega

theorem sqrtRatio_even (u v : Fe) : (sqrtRatio u v).1.val.val % 2 = 0 := by
  simp only [sqrtRatio, conditionalNegate_val, isSet_isNegative, decide_eq_true_eq]
  exact even_negate _

/-- Taking the even root changes nothing about its square. -/
private theorem even_negate_sq (x : F) : (if x.val % 2 = 1 then -x else x) ^ 2 = x ^ 2 := by
  split
  · exact neg_sq x
  · rfl

theorem sqrtRatio_sound {u v : Fe} (found : (sqrtRatio u v).2.isSet) :
    v.val * (sqrtRatio u v).1.val ^ 2 = u.val := by
  simp only [sqrtRatio, Choice.isSet_or, isSet_ctEq, mul_val, square_val, neg_val,
    Bool.or_eq_true, decide_eq_true_eq] at found
  simp only [sqrtRatio, conditionalNegate_val, isSet_isNegative, select_val, isSet_ctEq, mul_val,
    square_val, neg_val, decide_eq_true_eq, even_negate_sq]
  generalize u.val * (v.val ^ 2 * v.val) *
    (u.mul ((v.square.mul v).square.mul v)).powP58.val = root at *
  by_cases flipped : v.val * root ^ 2 = -u.val
  · rw [if_pos flipped]
    linear_combination v.val * root ^ 2 * SQRT_M1_sq - flipped
  · rw [if_neg flipped]
    exact found.resolve_right flipped

/-- The candidate for a square is a root, up to the sign of what it squares to. -/
theorem sqrtRatio_complete {u v : Fe} {x : F} (root : v.val * x ^ 2 = u.val) :
    (sqrtRatio u v).2.isSet := by
  have candidate := candidate_sq u.val v.val
  have square : u.val * v.val ^ 7 = (v.val ^ 4 * x) ^ 2 := by linear_combination -v.val ^ 7 * root
  have half : 2 * ((P - 1) / 4) = P / 2 := by norm_num [P]
  have sign : u.val * (u.val * v.val ^ 7) ^ ((P - 1) / 4) = u.val ∨
      u.val * (u.val * v.val ^ 7) ^ ((P - 1) / 4) = -u.val := by
    rw [square, ← pow_mul, half]
    by_cases zero : v.val ^ 4 * x = 0
    · have vanishes : u.val = 0 := by
        rcases mul_eq_zero.mp zero with v0 | x0
        · rw [← root, pow_eq_zero_iff (by decide) |>.mp v0, zero_mul]
        · rw [← root, x0, zero_pow (by decide), mul_zero]
      exact .inl (by rw [vanishes, zero_mul])
    · apply (ZMod.pow_div_two_eq_neg_one_or_one P zero).imp
      · intro one
        rw [one, mul_one]
      · intro minus
        rw [minus, mul_neg_one]
  simp only [sqrtRatio, Choice.isSet_or, isSet_ctEq, mul_val, square_val, neg_val, powP58_val,
    Bool.or_eq_true, decide_eq_true_eq]
  rw [← candidate] at sign
  convert sign using 2 <;> ring

end SquareRoots

end Fe

end Blindplane.Crypto
