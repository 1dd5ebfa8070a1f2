import Blindplane.Lib.Words
import Blindplane.Lib.Bytes
import Mathlib.Data.Nat.Bitwise

/-! # Choices without branches

A choice is a selection mask: all ones or all zeros. Comparisons end in one, and
selection applies it to words. Here is what each comes to.
-/

namespace Blindplane.Crypto

open Lib

/-- A boolean that never reaches a branch. -/
@[ext] structure Choice where
  mask : Nat
  valid : mask = 0 ∨ mask = 2 ^ 64 - 1

namespace Choice

/-- Build from the low bit of `bit`. -/
def fromBit (bit : Nat) : Choice where
  mask := (2 ^ 64 - (bit &&& 1)) % 2 ^ 64
  valid := by rw [Nat.and_one_is_mod]; omega

def FALSE : Choice := ⟨0, .inl rfl⟩

/-- Whether the choice is set. -/
def isSet (choice : Choice) : Bool := choice.mask = 2 ^ 64 - 1

def and (a b : Choice) : Choice where
  mask := a.mask &&& b.mask
  valid := by rcases a.valid with ha | ha <;> rcases b.valid with hb | hb <;> rw [ha, hb] <;> decide

def or (a b : Choice) : Choice where
  mask := a.mask ||| b.mask
  valid := by rcases a.valid with ha | ha <;> rcases b.valid with hb | hb <;> rw [ha, hb] <;> decide

def xor (a b : Choice) : Choice where
  mask := a.mask ^^^ b.mask
  valid := by rcases a.valid with ha | ha <;> rcases b.valid with hb | hb <;> rw [ha, hb] <;> decide

def not (a : Choice) : Choice where
  mask := 2 ^ 64 - 1 - a.mask
  valid := by rcases a.valid with ha | ha <;> rw [ha] <;> decide

theorem mask_eq (choice : Choice) : choice.mask = if choice.isSet then 2 ^ 64 - 1 else 0 := by
  unfold isSet
  rcases choice.valid with unset | set
  · rw [unset]; decide
  · rw [set]; decide

@[simp] theorem isSet_fromBit (bit : Nat) : (fromBit bit).isSet = decide (bit % 2 = 1) := by
  apply Bool.decide_congr
  simp only [fromBit, Nat.and_one_is_mod]
  omega

@[simp] theorem isSet_FALSE : FALSE.isSet = false := rfl

@[simp] theorem isSet_and (a b : Choice) : (a.and b).isSet = (a.isSet && b.isSet) := by
  rcases a.valid with ha | ha <;> rcases b.valid with hb | hb <;> simp [isSet, and, ha, hb]

@[simp] theorem isSet_or (a b : Choice) : (a.or b).isSet = (a.isSet || b.isSet) := by
  rcases a.valid with ha | ha <;> rcases b.valid with hb | hb <;> simp [isSet, or, ha, hb]

@[simp] theorem isSet_xor (a b : Choice) : (a.xor b).isSet = (a.isSet ^^ b.isSet) := by
  rcases a.valid with ha | ha <;> rcases b.valid with hb | hb <;> simp [isSet, xor, ha, hb]

@[simp] theorem isSet_not (a : Choice) : a.not.isSet = !a.isSet := by
  rcases a.valid with ha | ha <;> simp [isSet, not, ha]

/-- The word `b` under a set choice and `a` otherwise. -/
def selectWord (choice : Choice) (a b : Nat) : Nat := a ^^^ (choice.mask &&& (a ^^^ b))

/-- Exchange two words when the choice is set. -/
def swapWords (choice : Choice) (a b : Nat) : Nat × Nat :=
  let t := choice.mask &&& (a ^^^ b)
  (a ^^^ t, b ^^^ t)

theorem swapWords_eq (choice : Choice) (a b : Nat) :
    choice.swapWords a b = (choice.selectWord a b, choice.selectWord b a) := by
  rw [swapWords, selectWord, selectWord, Nat.xor_comm b a]

theorem selectWord_eq {choice : Choice} {a b : Nat} (ha : a < 2 ^ 64) (hb : b < 2 ^ 64) :
    choice.selectWord a b = if choice.isSet then b else a := by
  rw [selectWord, mask_eq]
  cases choice.isSet
  · simp
  · rw [if_pos rfl, if_pos rfl, Nat.and_comm, and_mask, Nat.mod_eq_of_lt (Nat.xor_lt_two_pow ha hb),
      ← Nat.xor_assoc, Nat.xor_self, Nat.zero_xor]

end Choice

/-- One for a zero word and zero for any other. -/
def isZeroU64 (value : Nat) : Nat := ((value ||| (2 ^ 64 - value) % 2 ^ 64) >>> 63) ^^^ 1

/-- A nonzero word or its negation has the top bit. -/
theorem isZeroU64_eq {value : Nat} (fits : value < 2 ^ 64) :
    isZeroU64 value = if value = 0 then 1 else 0 := by
  unfold isZeroU64
  rw [Nat.shiftRight_eq_div_pow]
  split
  · next zero => rw [zero]; decide
  · next nonzero =>
    have below := Nat.or_lt_two_pow fits (Nat.mod_lt (2 ^ 64 - value) (Nat.two_pow_pos 64))
    have left := @Nat.left_le_or value ((2 ^ 64 - value) % 2 ^ 64)
    have right := @Nat.right_le_or value ((2 ^ 64 - value) % 2 ^ 64)
    have top : (value ||| (2 ^ 64 - value) % 2 ^ 64) / 2 ^ 63 = 1 := by omega
    rw [top, Nat.xor_self]

/-- Compare two words. -/
def ctEqU64 (a b : Nat) : Choice := .fromBit (isZeroU64 (a ^^^ b))

@[simp] theorem isSet_ctEqU64 {a b : Nat} (ha : a < 2 ^ 64) (hb : b < 2 ^ 64) :
    (ctEqU64 a b).isSet = decide (a = b) := by
  rw [ctEqU64, Choice.isSet_fromBit, isZeroU64_eq (Nat.xor_lt_two_pow ha hb)]
  by_cases same : a = b
  · rw [same, Nat.xor_self]
    simp
  · rw [if_neg (fun zero => same (Nat.xor_eq_zero_iff.mp zero))]
    simp [same]

/-- Compare two byte strings in time that depends only on their length. -/
def ctEqBytes (a b : Bytes) : Choice :=
  if a.length ≠ b.length then .FALSE
  else
    let diff := (a.zip b).foldl (fun diff pair => diff ||| (pair.1 ^^^ pair.2)) 0
    .fromBit (isZeroU64 diff.toNat)

/-- The collected difference is zero exactly when every byte matched. -/
private theorem diff_eq_zero {a b : Bytes} (length : a.length = b.length) (diff : UInt8) :
    (a.zip b).foldl (fun diff pair => diff ||| (pair.1 ^^^ pair.2)) diff = 0 ↔ diff = 0 ∧ a = b := by
  induction a generalizing b diff with
  | nil =>
      obtain rfl := List.length_eq_zero_iff.mp length.symm
      simp
  | cons x xs ih =>
      cases b with
      | nil => cases length
      | cons y ys =>
          rw [List.zip_cons_cons, List.foldl_cons, ih (Nat.succ.inj length), UInt8.or_eq_zero_iff,
            UInt8.xor_eq_zero_iff, List.cons.injEq, and_assoc]

@[simp] theorem isSet_ctEqBytes (a b : Bytes) : (ctEqBytes a b).isSet = decide (a = b) := by
  unfold ctEqBytes
  split
  · next differ =>
    rw [Choice.isSet_FALSE]
    exact (decide_eq_false fun same => differ (congrArg List.length same)).symm
  · next length =>
    have zero := diff_eq_zero (not_not.mp length) 0
    rw [Choice.isSet_fromBit, isZeroU64_eq (Nat.lt_trans (UInt8.toNat_lt _) (by decide))]
    apply Bool.decide_congr
    rw [← UInt8.toNat_inj] at zero
    simp only [UInt8.toNat_zero, true_and] at zero
    rw [← zero]
    split
    · next matched => simp [matched]
    · next differ => simpa using differ

end Blindplane.Crypto
