import Mathlib.Algebra.Order.Ring.Int
import Mathlib.Tactic.Ring

/-! # Signed digits

The number that signed digits stand for, least significant first. Digits are read off a
number in windows, so a position may be filled in later; and they are consumed from the
top, one doubling of the base at a time.
-/

namespace Blindplane.Lib

/-- The number of signed digits, least significant first. -/
def signedValue (base : Int) : List Int → Int
  | [] => 0
  | digit :: rest => digit + base * signedValue base rest

variable {base : Int}

@[simp] theorem signedValue_nil : signedValue base [] = 0 := rfl

@[simp] theorem signedValue_cons (digit : Int) (rest : List Int) :
    signedValue base (digit :: rest) = digit + base * signedValue base rest := rfl

theorem signedValue_eq_zero {digits : List Int} (zero : ∀ digit ∈ digits, digit = 0) :
    signedValue base digits = 0 := by
  induction digits with
  | nil => rfl
  | cons digit rest ih =>
      obtain ⟨first, later⟩ := List.forall_mem_cons.mp zero
      rw [signedValue_cons, first, ih later, mul_zero, add_zero]

/-- Filling in a position that held a zero. -/
theorem signedValue_set {digits : List Int} {position : Nat} (digit : Int)
    (zero : digits[position]? = some 0) :
    signedValue base (digits.set position digit) =
      signedValue base digits + digit * base ^ position := by
  induction digits generalizing position with
  | nil => cases zero
  | cons first rest ih =>
      cases position with
      | zero =>
          rw [List.getElem?_cons_zero, Option.some.injEq] at zero
          rw [List.set_cons_zero, signedValue_cons, signedValue_cons, zero]
          ring
      | succ position =>
          rw [List.getElem?_cons_succ] at zero
          rw [List.set_cons_succ, signedValue_cons, signedValue_cons, ih zero]
          ring

/-- The digits from a position on, by the first of them. -/
theorem signedValue_drop {digits : List Int} {position : Nat} {digit : Int}
    (here : digits[position]? = some digit) :
    signedValue base (digits.drop position) =
      digit + base * signedValue base (digits.drop (position + 1)) := by
  obtain ⟨inside, rfl⟩ := List.getElem?_eq_some_iff.mp here
  rw [List.drop_eq_getElem_cons inside, signedValue_cons]

end Blindplane.Lib
