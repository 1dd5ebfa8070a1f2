import Blindplane.Crypto.Choice
import Blindplane.Crypto.Curve25519
import Blindplane.Lib.LimbArithmetic

/-! # Wide multiplication and Barrett reduction modulo the group order

Numbers in 64-bit limbs. The quotient estimate is never too large and at most two too
small, so two conditional subtractions finish the reduction.
-/

namespace Blindplane.Crypto

open Lib Curve25519

namespace Scalar

/-- The base of 64-bit limbs. -/
abbrev WORD : Nat := 2 ^ 64

/-- `L` in four 64-bit little-endian limbs. -/
def L_LIMBS : List Nat :=
  [0x5812631a5cf5d3ed, 0x14def9dea2f79cd6, 0x0000000000000000, 0x1000000000000000]

/-- `mu = floor(2^512 / L)` in five 64-bit little-endian limbs. -/
def MU : List Nat :=
  [0xed9ce5a30a2c131b, 0x2106215d086329a7, 0xffffffffffffffeb, 0xffffffffffffffff,
    0x000000000000000f]

theorem L_LIMBS_numeral : Numeral WORD 4 L_LIMBS := ⟨rfl, by decide⟩

theorem L_LIMBS_value : Nat.ofDigits WORD L_LIMBS = L := by norm_num [Nat.ofDigits_cons, L_LIMBS, WORD, L]

theorem MU_numeral : Numeral WORD 5 MU := ⟨rfl, by decide⟩

theorem MU_value : Nat.ofDigits WORD MU = WORD ^ 3 * WORD ^ 5 / L := by norm_num [Nat.ofDigits_cons, MU, WORD, L]

/-- `L` with a fifth limb. -/
theorem L_padded : Numeral WORD 5 (L_LIMBS ++ [0]) ∧ Nat.ofDigits WORD (L_LIMBS ++ [0]) = L :=
  ⟨⟨rfl, by decide⟩, by norm_num [Nat.ofDigits_cons, L_LIMBS, WORD, L]⟩

theorem L_lt_fourLimbs : L < WORD ^ 4 := by norm_num [WORD, L]

/-- Schoolbook 4x4 -> 8 limb multiplication. -/
def mulWide (a b : List Nat) : List Nat := mulDigits WORD b a (List.replicate 4 0)

/-- Subtract `L` from a five-limb value; the flag reports a borrow. -/
def subL5 (value : List Nat) : List Nat × Nat := subBorrow WORD value (L_LIMBS ++ [0]) 0

/-- Subtract `L` unless that borrows. -/
def conditionalSubL (result : List Nat) : List Nat :=
  let candidate := subL5 result
  let underflowed := Choice.fromBit candidate.2
  List.zipWith underflowed.not.selectWord result candidate.1

/-- Barrett reduction of a 512-bit integer modulo `L`. -/
def barrettReduce (x : List Nat) : List Nat :=
  let q1 := x.drop 3
  -- the limbs that a row adds its carry to are still zero
  let q2 := mulDigits WORD MU q1 (List.replicate 5 0)
  let q3 := q2.drop 5
  let r2 := mulLowDigits WORD q3 (L_LIMBS ++ [0]) (List.replicate 5 0)
  let r1 := x.take 5
  let r := (subBorrow WORD r1 r2 0).1
  (conditionalSubL (conditionalSubL r)).take 4

/-- Addition modulo `L` for two already-reduced values. -/
def addModL (a b : List Nat) : List Nat :=
  let (sum, carry) := addCarry WORD a b 0
  let (reduced, borrow) := subL5 (sum ++ [carry])
  let keep := Choice.fromBit borrow
  (List.zipWith keep.selectWord reduced (sum ++ [carry])).take 4

/-- Constant-time `a < b` for four-limb values. -/
def isLessThan (a b : List Nat) : Choice := .fromBit (subBorrow WORD a b 0).2

theorem mulWide_spec {a b : List Nat} (ha : Numeral WORD 4 a) (hb : Numeral WORD 4 b) :
    Numeral WORD 8 (mulWide a b) ∧
      Nat.ofDigits WORD (mulWide a b) = Nat.ofDigits WORD a * Nat.ofDigits WORD b := by
  have spec := mulDigits_spec hb (by decide) ha (Numeral.zeros (by decide) 4)
  rwa [Numeral.value_zeros, Nat.add_zero] at spec

theorem isSet_isLessThan {a b : List Nat} (ha : Numeral WORD 4 a) (hb : Numeral WORD 4 b) :
    (isLessThan a b).isSet = decide (Nat.ofDigits WORD a < Nat.ofDigits WORD b) := by
  obtain ⟨numeral, bit, value⟩ := subBorrow_spec (by decide) ha hb (Nat.zero_le 1)
  have high := numeral.value_lt
  have below := ha.value_lt
  rw [isLessThan, Choice.isSet_fromBit]
  apply Bool.decide_congr
  generalize (subBorrow WORD a b 0).2 = borrow at *
  obtain rfl | rfl : borrow = 0 ∨ borrow = 1 := by omega
  · omega
  · omega

/-- Selecting limb by limb selects the number. -/
theorem zipWith_selectWord {n : Nat} {a b : List Nat} (choice : Choice) (ha : Numeral WORD n a)
    (hb : Numeral WORD n b) :
    List.zipWith choice.selectWord a b = if choice.isSet then b else a := by
  induction n generalizing a b with
  | zero =>
      rw [List.eq_nil_of_length_eq_zero ha.length, List.eq_nil_of_length_eq_zero hb.length]
      split <;> rfl
  | succ n ih =>
      obtain ⟨x, a, rfl, hx, ha⟩ := ha.exists_cons
      obtain ⟨y, b, rfl, hy, hb⟩ := hb.exists_cons
      rw [List.zipWith_cons_cons, ih ha hb, Choice.selectWord_eq hx hy]
      split <;> rfl

theorem subL5_spec {value : List Nat} (numeral : Numeral WORD 5 value) :
    Numeral WORD 5 (subL5 value).1 ∧ (subL5 value).2 ≤ 1 ∧
      Nat.ofDigits WORD (subL5 value).1 + L = Nat.ofDigits WORD value + WORD ^ 5 * (subL5 value).2 := by
  obtain ⟨lNumeral, lValue⟩ := L_padded
  have spec := subBorrow_spec (by decide) numeral lNumeral (Nat.zero_le 1)
  rwa [lValue] at spec

/-- A borrow shows that the number was below `L` already. -/
theorem subL5_cases {value : List Nat} (numeral : Numeral WORD 5 value) :
    ((subL5 value).2 = 1 ∧ Nat.ofDigits WORD value < L) ∨
      ((subL5 value).2 = 0 ∧ Nat.ofDigits WORD (subL5 value).1 + L = Nat.ofDigits WORD value) := by
  obtain ⟨difference, bit, spec⟩ := subL5_spec numeral
  have high := difference.value_lt
  generalize (subL5 value).2 = borrow at *
  obtain rfl | rfl : borrow = 0 ∨ borrow = 1 := by omega
  · exact .inr ⟨rfl, by omega⟩
  · exact .inl ⟨rfl, by omega⟩

theorem conditionalSubL_spec {result : List Nat} (numeral : Numeral WORD 5 result) :
    Numeral WORD 5 (conditionalSubL result) ∧
      Nat.ofDigits WORD (conditionalSubL result) =
        if Nat.ofDigits WORD result < L then Nat.ofDigits WORD result
        else Nat.ofDigits WORD result - L := by
  have difference := (subL5_spec numeral).1
  simp only [conditionalSubL, zipWith_selectWord _ numeral difference, Choice.isSet_not,
    Choice.isSet_fromBit]
  rcases subL5_cases numeral with ⟨borrow, below⟩ | ⟨borrow, value⟩
  · rw [borrow, if_neg (show ¬ (!decide (1 % 2 = 1)) = true by decide), if_pos below]
    exact ⟨numeral, rfl⟩
  · rw [borrow, if_pos (show (!decide (0 % 2 = 1)) = true by decide), if_neg (by omega)]
    exact ⟨difference, by omega⟩

/-- Two subtractions reduce what is below `3*L`. -/
theorem conditionalSubL_twice {result : List Nat} (numeral : Numeral WORD 5 result)
    (small : Nat.ofDigits WORD result < 3 * L) :
    Numeral WORD 5 (conditionalSubL (conditionalSubL result)) ∧
      Nat.ofDigits WORD (conditionalSubL (conditionalSubL result)) = Nat.ofDigits WORD result % L := by
  obtain ⟨once, first⟩ := conditionalSubL_spec numeral
  obtain ⟨twice, second⟩ := conditionalSubL_spec once
  refine ⟨twice, ?_⟩
  rw [second, first]
  generalize Nat.ofDigits WORD result = n at small
  split
  · next reduced => exact (Nat.mod_eq_of_lt reduced).symm
  · next large =>
    rw [Nat.mod_eq_sub_mod (Nat.not_lt.mp large)]
    split
    · next reduced => rw [Nat.mod_eq_of_lt reduced]
    · next larger => rw [Nat.mod_eq_sub_mod (Nat.not_lt.mp larger), Nat.mod_eq_of_lt (by omega)]

/-- What is left of a number below the width after taking away a multiple, both modulo the
    width. -/
private theorem sub_mod_width {x q r rest borrow width : Nat} (estimate : x = q + rest)
    (small : rest < width) (below : r < width)
    (value : r + q % width = x % width + width * borrow) : r = rest := by
  have congruent : r + q ≡ rest + q [MOD width] := by
    have left : r + q ≡ x [MOD width] :=
      calc r + q ≡ r + q % width [MOD width] := (Nat.mod_modEq q width).symm.add_left r
        _ ≡ x % width + width * borrow [MOD width] := by rw [← value]
        _ ≡ x [MOD width] := by
          rw [Nat.ModEq, Nat.add_mul_mod_self_left, Nat.mod_mod]
    rwa [estimate, Nat.add_comm q] at left
  exact (congruent.add_right_cancel' q).eq_of_lt_of_lt below small

/-- What the quotient estimate leaves of a 512-bit integer, in five limbs. -/
def remainder (x : List Nat) : List Nat :=
  let q3 := (mulDigits WORD MU (x.drop 3) (List.replicate 5 0)).drop 5
  (subBorrow WORD (x.take 5) (mulLowDigits WORD q3 (L_LIMBS ++ [0]) (List.replicate 5 0)) 0).1

theorem barrettReduce_eq (x : List Nat) :
    barrettReduce x = (conditionalSubL (conditionalSubL (remainder x))).take 4 := rfl

/-- The quotient estimate is at most two too small. -/
theorem remainder_spec {x : List Nat} (numeral : Numeral WORD 8 x) :
    Numeral WORD 5 (remainder x) ∧ Nat.ofDigits WORD (remainder x) < 3 * L ∧
      Nat.ofDigits WORD (remainder x) % L = Nat.ofDigits WORD x % L := by
  have positive : 0 < WORD := by decide
  have q1 : Numeral WORD 5 (x.drop 3) := numeral.drop 3
  have q1Value := numeral.value_drop (show 3 ≤ 8 by decide) positive
  obtain ⟨q2, q2Value⟩ := mulDigits_spec MU_numeral positive q1 (Numeral.zeros positive 5)
  have q3 : Numeral WORD 5 ((mulDigits WORD MU (x.drop 3) (List.replicate 5 0)).drop 5) := q2.drop 5
  have q3Value := q2.value_drop (show 5 ≤ 5 + 5 by decide) positive
  obtain ⟨lNumeral, lValue⟩ := L_padded
  obtain ⟨r2, r2Value⟩ := mulLowDigits_spec positive q3 lNumeral (Numeral.zeros positive 5)
  have r1Value := numeral.value_take (show 5 ≤ 8 by decide)
  obtain ⟨r, -, rValue⟩ := subBorrow_spec (by decide) (numeral.take (show 5 ≤ 8 by decide)) r2
    (Nat.zero_le 1)
  have fits := numeral.value_lt
  rw [Nat.pow_add WORD 3 5] at fits
  obtain ⟨rest, estimate, small⟩ := barrett_estimate (Nat.pow_pos positive)
    (show WORD ^ 3 ≤ L by norm_num [WORD, L]) fits
  rw [q2Value, q1Value, MU_value, Numeral.value_zeros, Nat.add_zero] at q3Value
  rw [r1Value, r2Value, q3Value, lValue, Numeral.value_zeros, Nat.add_zero, Nat.add_zero] at rValue
  have width : 3 * L < WORD ^ 5 := by norm_num [WORD, L]
  have value : Nat.ofDigits WORD (remainder x) = rest :=
    sub_mod_width estimate (Nat.lt_trans small width) r.value_lt rValue
  refine ⟨r, value ▸ small, ?_⟩
  rw [value, estimate, Nat.mul_add_mod_self_right]

/-- After both subtractions the fifth limb is zero. -/
theorem conditionalSubL_remainder {x : List Nat} (numeral : Numeral WORD 8 x) :
    Numeral WORD 5 (conditionalSubL (conditionalSubL (remainder x))) ∧
      Nat.ofDigits WORD (conditionalSubL (conditionalSubL (remainder x))) = Nat.ofDigits WORD x % L ∧
      (conditionalSubL (conditionalSubL (remainder x)))[4]? = some 0 := by
  obtain ⟨r, small, congruent⟩ := remainder_spec numeral
  obtain ⟨twice, value⟩ := conditionalSubL_twice r small
  rw [congruent] at value
  refine ⟨twice, value, ?_⟩
  have fourLimbs := L_lt_fourLimbs
  have below := Nat.lt_trans (Nat.mod_lt (Nat.ofDigits WORD x) L_pos) fourLimbs
  have top := twice.getD (show 0 < WORD by decide) 4
  rw [value, Nat.div_eq_of_lt below, Nat.zero_mod] at top
  rw [List.getD_eq_getElem?_getD, List.getElem?_eq_getElem (by rw [twice.length]; decide)] at top
  rw [List.getElem?_eq_getElem (by rw [twice.length]; decide)]
  exact congrArg some top

theorem barrettReduce_spec {x : List Nat} (numeral : Numeral WORD 8 x) :
    Numeral WORD 4 (barrettReduce x) ∧
      Nat.ofDigits WORD (barrettReduce x) = Nat.ofDigits WORD x % L := by
  obtain ⟨twice, value, -⟩ := conditionalSubL_remainder numeral
  have fourLimbs := L_lt_fourLimbs
  have below := Nat.lt_trans (Nat.mod_lt (Nat.ofDigits WORD x) L_pos) fourLimbs
  rw [barrettReduce_eq]
  refine ⟨twice.take (show 4 ≤ 5 by decide), ?_⟩
  rw [twice.value_take (by decide), value, Nat.mod_eq_of_lt below]

/-- Adding below `2*L` needs at most one subtraction. -/
theorem addModL_spec {a b : List Nat} (ha : Numeral WORD 4 a) (hb : Numeral WORD 4 b)
    (aReduced : Nat.ofDigits WORD a < L) (bReduced : Nat.ofDigits WORD b < L) :
    Numeral WORD 4 (addModL a b) ∧
      Nat.ofDigits WORD (addModL a b) = (Nat.ofDigits WORD a + Nat.ofDigits WORD b) % L := by
  obtain ⟨four, bit, spec⟩ := addCarry_spec (by decide) ha hb (Nat.zero_le 1)
  have sum := four.append (Numeral.nil.cons (Nat.lt_of_le_of_lt bit (by decide)))
  have value : Nat.ofDigits WORD ((addCarry WORD a b 0).1 ++ [(addCarry WORD a b 0).2]) =
      Nat.ofDigits WORD a + Nat.ofDigits WORD b := by
    rw [Nat.ofDigits_append, four.length, Nat.ofDigits_singleton, spec, Nat.add_zero]
  obtain ⟨chosen, result⟩ := conditionalSubL_spec sum
  -- keeping the sum under a borrow is subtracting unless that borrows
  have same : addModL a b = (conditionalSubL ((addCarry WORD a b 0).1 ++ [(addCarry WORD a b 0).2])).take 4 := by
    have difference := (subL5_spec sum).1
    simp only [addModL, conditionalSubL, zipWith_selectWord _ sum difference,
      zipWith_selectWord _ difference sum, Choice.isSet_not]
    cases (Choice.fromBit (subL5 ((addCarry WORD a b 0).1 ++ [(addCarry WORD a b 0).2])).2).isSet <;> rfl
  rw [same]
  have fourLimbs := L_lt_fourLimbs
  refine ⟨chosen.take (by decide), ?_⟩
  rw [chosen.value_take (by decide), result, value]
  split
  · next reduced => rw [Nat.mod_eq_of_lt reduced, Nat.mod_eq_of_lt (Nat.lt_trans reduced fourLimbs)]
  · next large =>
    rw [Nat.mod_eq_sub_mod (Nat.not_lt.mp large), Nat.mod_eq_of_lt (show _ < L by omega),
      Nat.mod_eq_of_lt (by omega)]

end Scalar

end Blindplane.Crypto
