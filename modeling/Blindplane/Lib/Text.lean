import Blindplane.Lib.Bytes
import Blindplane.Lib.Words
import Mathlib.Data.Nat.Digits.Lemmas

/-! # Numbers in text

Digits of a radix, and unsigned integers of a fixed width as they are printed and parsed.
Parsing allows a plus sign and leading zeros, and gives up when the number does not fit;
what is printed is parsed back.
-/

namespace Blindplane.Lib.Text

open Arithmetic

/-- `char::to_digit`, of a character below 256. -/
def toDigit (radix : Nat) (character : UInt8) : Option Nat :=
  let code := character.toNat
  let value :=
    if 48 ≤ code ∧ code ≤ 57 then some (code - 48)
    else if 97 ≤ code ∧ code ≤ 122 then some (code - 97 + 10)
    else if 65 ≤ code ∧ code ≤ 90 then some (code - 65 + 10)
    else none
  value.filter (· < radix)

/-- The digits of a number, the most significant first. -/
def parseDigits (width : Nat) (text : Bytes) (number : Nat) : Option Nat :=
  text.foldlM (fun number character => do
    let digit ← toDigit 10 character
    add width (← mul width number 10) digit) number

/-- `str::parse` of an unsigned integer. -/
def parseUnsigned (width : Nat) (text : Bytes) : Option Nat :=
  match text with
  | [] => none
  | character :: rest =>
      if character = 43 then
        if rest = [] then none else parseDigits width rest 0
      else parseDigits width (character :: rest) 0

/-- A number as it is printed. -/
def decimal (n : Nat) : Bytes :=
  if n = 0 then [48] else (Nat.digits 10 n).reverse.map fun digit => UInt8.ofNat (48 + digit)

section Decimal

theorem toDigit_ofNat : ∀ digit < 10, toDigit 10 (UInt8.ofNat (48 + digit)) = some digit := by
  decide

/-- Further digits only make a number larger. -/
theorem le_foldl (digits : List Nat) (number : Nat) : number ≤ digits.foldl (fun number digit => number * 10 + digit) number := by
  induction digits generalizing number with
  | nil => exact Nat.le_refl number
  | cons digit rest ih =>
      have later := ih (number * 10 + digit)
      rw [List.foldl_cons]
      omega

theorem parseDigits_map {width : Nat} {digits : List Nat} (small : ∀ digit ∈ digits, digit < 10) {number : Nat}
    (fits : digits.foldl (fun number digit => number * 10 + digit) number < 2 ^ width) :
    parseDigits width (digits.map fun digit => UInt8.ofNat (48 + digit)) number =
      some (digits.foldl (fun number digit => number * 10 + digit) number) := by
  induction digits generalizing number with
  | nil => rfl
  | cons digit rest ih =>
      obtain ⟨below, others⟩ := List.forall_mem_cons.mp small
      rw [List.foldl_cons] at fits ⊢
      have head_fits := Nat.lt_of_le_of_lt (le_foldl rest (number * 10 + digit)) fits
      have later := ih others fits
      rw [parseDigits, List.map_cons, List.foldlM_cons, toDigit_ofNat digit below]
      simp only [Option.bind_eq_bind, Option.bind_some]
      rw [mul_eq (by omega)]
      simp only [Option.pure_def, Option.bind_some]
      rw [add_eq head_fits]
      exact later

theorem foldl_digits (n : Nat) : (Nat.digits 10 n).reverse.foldl (fun number digit => number * 10 + digit) 0 = n := by
  have value := Nat.ofDigits_digits 10 n
  rw [Nat.ofDigits_eq_foldr] at value
  rw [List.foldl_reverse]
  conv_rhs => rw [← value]
  congr 1
  funext digit number
  simp only [Nat.cast_id]
  omega

/-- The characters of a printed number. -/
theorem mem_decimal {n : Nat} {character : UInt8} (member : character ∈ decimal n) :
    ∃ digit < 10, character = UInt8.ofNat (48 + digit) := by
  rw [decimal] at member
  split at member
  · exact ⟨0, by decide, List.mem_singleton.mp member⟩
  · obtain ⟨digit, inside, rfl⟩ := List.mem_map.mp member
    exact ⟨digit, Nat.digits_lt_base (by decide) (List.mem_reverse.mp inside), rfl⟩

/-- What is printed is parsed back. -/
theorem parseUnsigned_decimal {width n : Nat} (fits : n < 2 ^ width) : parseUnsigned width (decimal n) = some n := by
  have unsigned : ∀ character ∈ decimal n, character ≠ 43 := by
    intro character member
    have plain : ∀ digit < 10, UInt8.ofNat (48 + digit) ≠ 43 := by decide
    obtain ⟨digit, below, rfl⟩ := mem_decimal member
    exact plain digit below
  have parsed : parseDigits width (decimal n) 0 = some n := by
    rw [decimal]
    split
    · next zero =>
        have none := @parseDigits_map width [0] (by decide) 0 (by simp)
        rw [zero]
        exact none
    · have small : ∀ digit ∈ (Nat.digits 10 n).reverse, digit < 10 := by
        intro digit member
        exact Nat.digits_lt_base (by decide) (List.mem_reverse.mp member)
      rw [parseDigits_map small (by rwa [foldl_digits]), foldl_digits]
  cases printed : decimal n with
  | nil =>
      rw [decimal] at printed
      split at printed
      · cases printed
      · next some_digits =>
          rw [List.map_eq_nil_iff, List.reverse_eq_nil_iff, Nat.digits_eq_nil_iff_eq_zero] at printed
          exact absurd printed some_digits
  | cons character rest =>
      rw [printed] at unsigned parsed
      rw [parseUnsigned, if_neg (unsigned character List.mem_cons_self), parsed]

end Decimal

end Blindplane.Lib.Text
