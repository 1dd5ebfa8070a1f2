import Blindplane.Crypto.Scalar.Reduce

/-! # Scalars

An integer modulo the group order, in four limbs that hold its least residue. Every way of
making one reduces or checks, and each comes to arithmetic modulo `L`.
-/

namespace Blindplane.Crypto

open Lib Curve25519

/-- An integer modulo `L`. -/
structure Scalar where
  limbs : List Nat
  numeral : Numeral Scalar.WORD 4 limbs
  reduced : Nat.ofDigits Scalar.WORD limbs < L

namespace Scalar

/-- The least residue. -/
def val (a : Scalar) : Nat := Nat.ofDigits WORD a.limbs

theorem val_lt (a : Scalar) : a.val < L := a.reduced

/-- Zero. -/
def ZERO : Scalar where
  limbs := List.replicate 4 0
  numeral := Numeral.zeros (Nat.two_pow_pos 64) 4
  reduced := (Numeral.value_zeros WORD 4).symm ▸ L_pos

/-- What Barrett reduction leaves. -/
def ofWide (wide : List Nat) (numeral : Numeral WORD 8 wide) : Scalar where
  limbs := barrettReduce wide
  numeral := (barrettReduce_spec numeral).1
  reduced := (barrettReduce_spec numeral).2 ▸ Nat.mod_lt _ L_pos

theorem ofWide_val (wide : List Nat) (numeral : Numeral WORD 8 wide) :
    (ofWide wide numeral).val = Nat.ofDigits WORD wide % L :=
  (barrettReduce_spec numeral).2

private theorem words_numeral (count : Nat) (bytes : Bytes) : Numeral WORD count (Bytes.words 8 count bytes) :=
  ⟨Bytes.words_length 8 count bytes, fun _ member =>
    Nat.lt_of_lt_of_eq (Bytes.lt_of_mem_words member) Bytes.word_base⟩

private theorem words_value {count : Nat} {bytes : Bytes} (length : bytes.length = 8 * count) :
    Nat.ofDigits WORD (Bytes.words 8 count bytes) = Bytes.ofLe bytes := by
  rw [← Bytes.ofDigits_words length, Bytes.word_base]

/-- Reduce a 64-byte little-endian integer, as produced by SHA-512. -/
def fromWideBytes (bytes : Vector UInt8 64) : Scalar :=
  ofWide (Bytes.words 8 8 bytes.toList) (words_numeral 8 _)

/-- Reduce a 32-byte little-endian integer. -/
def fromBytesModOrder (bytes : Vector UInt8 32) : Scalar :=
  ofWide (Bytes.words 8 4 bytes.toList ++ List.replicate 4 0)
    ((words_numeral 4 _).append (Numeral.zeros (by decide) 4))

/-- Accept a 32-byte little-endian integer only when it is already reduced. -/
def fromCanonicalBytes (bytes : Vector UInt8 32) : Option Scalar :=
  let limbs := Bytes.words 8 4 bytes.toList
  if canonical : (isLessThan limbs L_LIMBS).isSet then
    some
      { limbs
        numeral := words_numeral 4 _
        reduced := by
          rwa [isSet_isLessThan (words_numeral 4 _) L_LIMBS_numeral, decide_eq_true_eq,
            L_LIMBS_value] at canonical }
  else none

/-- Serialize to 32 little-endian bytes. -/
def toBytes (a : Scalar) : Vector UInt8 32 :=
  ⟨(a.limbs.flatMap (Bytes.le 8)).toArray, by
    rw [List.size_toArray, Bytes.flatMap_le_length, a.numeral.length]⟩

/-- `mul_add` on limbs; only the addend need be reduced. -/
def mulAddLimbs (a rhs addend : List Nat) : List Nat := addModL (barrettReduce (mulWide a rhs)) addend

theorem mulAddLimbs_spec {a rhs addend : List Nat} (ha : Numeral WORD 4 a) (hr : Numeral WORD 4 rhs)
    (hc : Numeral WORD 4 addend) (reduced : Nat.ofDigits WORD addend < L) :
    Numeral WORD 4 (mulAddLimbs a rhs addend) ∧
      Nat.ofDigits WORD (mulAddLimbs a rhs addend) =
        (Nat.ofDigits WORD a * Nat.ofDigits WORD rhs + Nat.ofDigits WORD addend) % L := by
  obtain ⟨wide, product⟩ := mulWide_spec ha hr
  obtain ⟨numeral, value⟩ := barrettReduce_spec wide
  have small : Nat.ofDigits WORD (barrettReduce (mulWide a rhs)) < L := value ▸ Nat.mod_lt _ L_pos
  obtain ⟨four, sum⟩ := addModL_spec numeral hc small reduced
  exact ⟨four, by rw [mulAddLimbs, sum, value, product, Nat.mod_add_mod]⟩

private theorem mulAdd_spec (a rhs addend : Scalar) :
    Numeral WORD 4 (addModL (barrettReduce (mulWide a.limbs rhs.limbs)) addend.limbs) ∧
      Nat.ofDigits WORD (addModL (barrettReduce (mulWide a.limbs rhs.limbs)) addend.limbs) =
        (a.val * rhs.val + addend.val) % L :=
  mulAddLimbs_spec a.numeral rhs.numeral addend.numeral addend.reduced

/-- `self * rhs + addend` reduced modulo `L`. -/
def mulAdd (a rhs addend : Scalar) : Scalar where
  limbs := addModL (barrettReduce (mulWide a.limbs rhs.limbs)) addend.limbs
  numeral := (mulAdd_spec a rhs addend).1
  reduced := (mulAdd_spec a rhs addend).2 ▸ Nat.mod_lt _ L_pos

theorem fromWideBytes_val (bytes : Vector UInt8 64) :
    (fromWideBytes bytes).val = Bytes.ofLe bytes.toList % L := by
  rw [fromWideBytes, ofWide_val, words_value bytes.length_toList]

theorem fromBytesModOrder_val (bytes : Vector UInt8 32) :
    (fromBytesModOrder bytes).val = Bytes.ofLe bytes.toList % L := by
  rw [fromBytesModOrder, ofWide_val, Nat.ofDigits_append, Numeral.value_zeros, Nat.mul_zero, Nat.add_zero,
    words_value bytes.length_toList]

private theorem canonical_iff (bytes : Vector UInt8 32) :
    (isLessThan (Bytes.words 8 4 bytes.toList) L_LIMBS).isSet ↔ Bytes.ofLe bytes.toList < L := by
  rw [isSet_isLessThan (words_numeral 4 _) L_LIMBS_numeral, decide_eq_true_eq, L_LIMBS_value,
    words_value bytes.length_toList]

theorem fromCanonicalBytes_val {bytes : Vector UInt8 32} {a : Scalar}
    (canonical : fromCanonicalBytes bytes = some a) : a.val = Bytes.ofLe bytes.toList := by
  simp only [fromCanonicalBytes] at canonical
  split at canonical
  · obtain rfl := Option.some.inj canonical
    exact words_value bytes.length_toList
  · cases canonical

theorem fromCanonicalBytes_eq_none {bytes : Vector UInt8 32} :
    fromCanonicalBytes bytes = none ↔ ¬ Bytes.ofLe bytes.toList < L := by
  simp only [fromCanonicalBytes]
  split
  · next canonical => simp [(canonical_iff bytes).mp canonical]
  · next above => simp [mt (canonical_iff bytes).mpr above]

theorem ofLe_toBytes (a : Scalar) : Bytes.ofLe a.toBytes.toList = a.val := by
  have bytes : a.toBytes.toList = a.limbs.flatMap (Bytes.le 8) := by
    simp only [toBytes, Vector.toList_mk]
  rw [bytes, Bytes.ofLe_flatMap_le, Bytes.word_base, val]
  rw [Bytes.word_base]
  exact a.numeral.below

theorem mulAdd_val (a rhs addend : Scalar) :
    (a.mulAdd rhs addend).val = (a.val * rhs.val + addend.val) % L :=
  (mulAdd_spec a rhs addend).2

theorem mulAdd_limbs (a rhs addend : Scalar) :
    (a.mulAdd rhs addend).limbs = mulAddLimbs a.limbs rhs.limbs addend.limbs := rfl

/-- A scalar is its limbs' number. -/
theorem ext_val {a b : Scalar} (same : a.val = b.val) : a = b := by
  obtain ⟨limbs, numeral, _⟩ := a
  obtain ⟨limbs', numeral', _⟩ := b
  have lengths : limbs.length = limbs'.length := numeral.length.trans numeral'.length.symm
  have limbs_eq : limbs = limbs' :=
    Nat.ofDigits_inj_of_len_eq (by decide : 1 < WORD) lengths numeral.below numeral'.below same
  cases limbs_eq
  rfl

theorem toBytes_fromCanonicalBytes {bytes : Vector UInt8 32} {a : Scalar}
    (accepted : fromCanonicalBytes bytes = some a) : a.toBytes = bytes := by
  have number : Bytes.ofLe a.toBytes.toList = Bytes.ofLe bytes.toList := by
    rw [ofLe_toBytes, fromCanonicalBytes_val accepted]
  have list := (Bytes.ofLe_inj (by rw [Vector.length_toList, Vector.length_toList])).mp number
  exact Vector.toList_inj.mp list

theorem fromCanonicalBytes_toBytes (a : Scalar) : fromCanonicalBytes a.toBytes = some a := by
  cases accepted : fromCanonicalBytes a.toBytes with
  | none =>
      rw [fromCanonicalBytes_eq_none, ofLe_toBytes] at accepted
      exact absurd a.val_lt accepted
  | some b =>
      have number := fromCanonicalBytes_val accepted
      rw [ofLe_toBytes] at number
      rw [ext_val number]

/-- Reduction, multiplication and the reading of scalars are arithmetic modulo `L`. -/
theorem arithmetic_exact :
    (∀ x, Numeral WORD 8 x →
      barrettReduce x = (conditionalSubL (conditionalSubL (remainder x))).take 4 ∧
        Nat.ofDigits WORD (remainder x) < 3 * L ∧
        (conditionalSubL (conditionalSubL (remainder x)))[4]? = some 0 ∧
        Numeral WORD 4 (barrettReduce x) ∧ Nat.ofDigits WORD (barrettReduce x) = Nat.ofDigits WORD x % L) ∧
    (∀ bytes, (fromWideBytes bytes).val = Bytes.ofLe bytes.toList % L) ∧
    (∀ a rhs addend, Numeral WORD 4 a → Numeral WORD 4 rhs → Numeral WORD 4 addend →
      Nat.ofDigits WORD addend < L → Numeral WORD 4 (mulAddLimbs a rhs addend) ∧
        Nat.ofDigits WORD (mulAddLimbs a rhs addend) =
          (Nat.ofDigits WORD a * Nat.ofDigits WORD rhs + Nat.ofDigits WORD addend) % L) ∧
    (∀ a rhs addend : Scalar, (a.mulAdd rhs addend).limbs = mulAddLimbs a.limbs rhs.limbs addend.limbs) ∧
    (∀ bytes, (fromCanonicalBytes bytes).isSome ↔ Bytes.ofLe bytes.toList < L) ∧
    (∀ bytes a, fromCanonicalBytes bytes = some a → a.val = Bytes.ofLe bytes.toList ∧ a.toBytes = bytes) ∧
    ∀ a : Scalar, fromCanonicalBytes a.toBytes = some a := by
  refine ⟨?_, fromWideBytes_val, ?_, mulAdd_limbs, ?_, ?_, fromCanonicalBytes_toBytes⟩
  · intro x numeral
    obtain ⟨four, value⟩ := barrettReduce_spec numeral
    exact ⟨barrettReduce_eq x, (remainder_spec numeral).2.1, (conditionalSubL_remainder numeral).2.2, four, value⟩
  · intro a rhs addend ha hr hc reduced
    exact mulAddLimbs_spec ha hr hc reduced
  · intro bytes
    rw [Option.isSome_iff_ne_none, Ne, fromCanonicalBytes_eq_none, not_not]
  · intro bytes a accepted
    exact ⟨fromCanonicalBytes_val accepted, toBytes_fromCanonicalBytes accepted⟩

/-- The widest number, and the square of the widest operand with one added. -/
theorem arithmetic_exact_widest :
    Nat.ofDigits WORD (remainder (List.replicate 8 (WORD - 1))) < 3 * L ∧
      Nat.ofDigits WORD (mulAddLimbs (List.replicate 4 (WORD - 1)) (List.replicate 4 (WORD - 1)) [1, 0, 0, 0]) =
        (Nat.ofDigits WORD (List.replicate 4 (WORD - 1)) * Nat.ofDigits WORD (List.replicate 4 (WORD - 1)) +
          Nat.ofDigits WORD [1, 0, 0, 0]) % L ∧
      ZERO.val = Bytes.ofLe ZERO.toBytes.toList := by
  obtain ⟨barrett, -, multiply, -, -, canonical, -⟩ := arithmetic_exact
  have widest (n : Nat) : Numeral WORD n (List.replicate n (WORD - 1)) := by
    refine ⟨List.length_replicate, fun digit member => ?_⟩
    rw [List.eq_of_mem_replicate member]
    exact Nat.sub_lt (Nat.two_pow_pos 64) Nat.one_pos
  have one : Numeral WORD 4 [1, 0, 0, 0] := ⟨rfl, by decide⟩
  exact ⟨(barrett _ (widest 8)).2.1, (multiply _ _ _ (widest 4) (widest 4) one (by decide +kernel)).2,
    (canonical _ _ (fromCanonicalBytes_toBytes ZERO)).1⟩

end Scalar

end Blindplane.Crypto
