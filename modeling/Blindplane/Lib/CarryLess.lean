import Blindplane.Lib.Simd
import Mathlib.RingTheory.AdjoinRoot
import Mathlib.Algebra.Polynomial.Degree.Domain
import Mathlib.Algebra.CharP.Two
import Mathlib.Algebra.Field.ZMod
import Mathlib.Tactic.LinearCombination

/-! # Arithmetic without carries

The bits of a word are the coefficients of a polynomial over the field of two elements:
XOR adds, and the polynomial multiply of two halves multiplies. Modulo a monic polynomial
of as high a degree as the word has bits, words and residues are in one-to-one
correspondence, so that words may be compared by computing with residues.
-/

namespace Blindplane.Lib

open Polynomial Simd

/-- A bit as an element of the field of two. -/
def coefficient (bit : Bool) : ZMod 2 := if bit then 1 else 0

theorem coefficient_xor (a b : Bool) : coefficient (a ^^ b) = coefficient a + coefficient b := by
  revert a b
  decide

theorem coefficient_inj {a b : Bool} : coefficient a = coefficient b ↔ a = b := by
  revert a b
  decide

/-- The polynomial whose coefficients are the bits of a word, the lowest first. -/
noncomputable def poly {w : Nat} (r : BitVec w) : (ZMod 2)[X] :=
  ∑ i ∈ Finset.range w, C (coefficient (r.getLsbD i)) * X ^ i

section Polynomials

variable {w : Nat}

theorem coeff_poly (r : BitVec w) (i : Nat) : (poly r).coeff i = coefficient (r.getLsbD i) := by
  rw [poly, finsetSum_coeff]
  simp only [coeff_C_mul_X_pow]
  rw [Finset.sum_ite_eq]
  split
  · rfl
  · next outside =>
    rw [Finset.mem_range, Nat.not_lt] at outside
    rw [BitVec.getLsbD_of_ge _ _ outside]
    rfl

theorem poly_injective : Function.Injective (poly : BitVec w → (ZMod 2)[X]) := by
  intro a b same
  apply BitVec.eq_of_getLsbD_eq
  intro i _
  rw [← coefficient_inj, ← coeff_poly, ← coeff_poly, same]

theorem degree_poly_lt (r : BitVec w) : (poly r).degree < w := by
  rw [degree_lt_iff_coeff_zero]
  intro i outside
  rw [coeff_poly, BitVec.getLsbD_of_ge _ _ outside]
  rfl

@[simp] theorem poly_zero : poly (0 : BitVec w) = 0 := by
  ext i
  have clear : (0 : BitVec w).getLsbD i = false := BitVec.getLsbD_zero
  rw [coeff_poly, coeff_zero, clear]
  rfl

@[simp] theorem poly_xor (a b : BitVec w) : poly (a ^^^ b) = poly a + poly b := by
  ext i
  rw [coeff_add, coeff_poly, coeff_poly, coeff_poly, BitVec.getLsbD_xor, coefficient_xor]

/-- Twice anything is nothing. -/
theorem two_eq_zero : (2 : (ZMod 2)[X]) = 0 := CharTwo.two_eq_zero

theorem poly_shift {v : Nat} (r : BitVec w) {i : Nat} (room : w + i ≤ v) :
    poly (r.setWidth v <<< i) = X ^ i * poly r := by
  ext j
  rw [coeff_X_pow_mul', coeff_poly, BitVec.getLsbD_shiftLeft, BitVec.getLsbD_setWidth]
  split
  · next above =>
    have low : decide (j < i) = false := decide_eq_false (Nat.not_lt.mpr above)
    rw [coeff_poly, low, Bool.not_false, Bool.and_true]
    by_cases inside : j - i < w
    · have below : j < v ∧ j - i < v := by omega
      rw [decide_eq_true below.1, decide_eq_true below.2, Bool.true_and, Bool.true_and]
    · rw [BitVec.getLsbD_of_ge r _ (Nat.not_lt.mp inside), Bool.and_false, Bool.and_false]
  · next below =>
    rw [decide_eq_true (Nat.not_le.mp below), Bool.not_true, Bool.and_false, Bool.false_and]
    rfl

/-- Shifting by one place multiplies by `X`, but for the bit that leaves the word. -/
theorem poly_shift_one (r : BitVec w) (positive : 0 < w) :
    X * poly r = poly (r <<< 1) + C (coefficient (r.getLsbD (w - 1))) * X ^ w := by
  ext j
  rw [coeff_add, coeff_C_mul_X_pow, coeff_poly, BitVec.getLsbD_shiftLeft]
  cases j with
  | zero =>
      rw [coeff_X_mul_zero, if_neg (Nat.ne_of_lt positive), decide_eq_true Nat.zero_lt_one, Bool.not_true,
        Bool.and_false, Bool.false_and]
      rfl
  | succ k =>
      have shifted : decide (k + 1 < 1) = false := decide_eq_false (by omega)
      rw [coeff_X_mul, coeff_poly, shifted, Bool.not_false, Bool.and_true, Nat.add_sub_cancel]
      rcases Nat.lt_trichotomy (k + 1) w with inside | last | outside
      · rw [decide_eq_true inside, Bool.true_and, if_neg (Nat.ne_of_lt inside), add_zero]
      · have top : w - 1 = k := by omega
        rw [decide_eq_false (Nat.not_lt.mpr (Nat.le_of_eq last.symm)), Bool.false_and, if_pos last, top]
        exact (zero_add _).symm
      · rw [decide_eq_false (Nat.not_lt.mpr (Nat.le_of_lt outside)), Bool.false_and, if_neg (Nat.ne_of_gt outside),
          BitVec.getLsbD_of_ge r k (by omega)]
        rfl

/-- The polynomial multiply multiplies polynomials. -/
@[simp] theorem poly_vmull_p64 (a b : BitVec 64) : poly (vmull_p64 a b) = poly a * poly b := by
  have steps : ∀ k ≤ 64, poly ((List.range k).foldl
      (fun product i => if a.getLsbD i then product ^^^ b.setWidth 128 <<< i else product) (0 : BitVec 128)) =
        (∑ i ∈ Finset.range k, C (coefficient (a.getLsbD i)) * X ^ i) * poly b := by
    intro k
    induction k with
    | zero =>
        intro _
        rw [List.range_zero, List.foldl_nil, Finset.sum_range_zero, zero_mul, poly_zero]
    | succ k ih =>
        intro within
        rw [List.range_succ, List.foldl_append, List.foldl_cons, List.foldl_nil, Finset.sum_range_succ, add_mul,
          ← ih (Nat.le_of_succ_le within)]
        cases a.getLsbD k with
        | true => rw [if_pos rfl, poly_xor, poly_shift b (by omega), coefficient, if_pos rfl, C_1, one_mul]
        | false =>
            rw [if_neg Bool.false_ne_true, coefficient, if_neg Bool.false_ne_true, C_0, zero_mul, zero_mul, add_zero]
  exact steps 64 (Nat.le_refl 64)

/-- A register is its lower half and its upper half. -/
theorem poly_halves (r : Register) : poly r = poly (lane 64 r 0) + X ^ 64 * poly (lane 64 r 1) := by
  ext j
  rw [coeff_add, coeff_X_pow_mul', coeff_poly, coeff_poly, lane, lane, BitVec.getLsbD_extractLsb']
  split
  · next above =>
    have high : decide (j < 64) = false := decide_eq_false (Nat.not_lt.mpr above)
    have position : 64 * 1 + (j - 64) = j := by omega
    rw [coeff_poly, BitVec.getLsbD_extractLsb', position, high, Bool.false_and]
    by_cases inside : j - 64 < 64
    · rw [decide_eq_true inside, Bool.true_and]
      exact (zero_add _).symm
    · rw [BitVec.getLsbD_of_ge r j (by omega), Bool.and_false]
      rfl
  · next below =>
    rw [decide_eq_true (Nat.not_le.mp below), Bool.true_and, add_zero, Nat.mul_zero, Nat.zero_add]

end Polynomials

section Residues

variable {w : Nat} {g : (ZMod 2)[X]}

/-- The residue of a word modulo `g`. -/
noncomputable def residue (g : (ZMod 2)[X]) (r : BitVec w) : AdjoinRoot g := AdjoinRoot.mk g (poly r)

/-- Words are told apart by their residues. -/
theorem residue_injective (degree : g.degree = w) : Function.Injective (residue g : BitVec w → AdjoinRoot g) := by
  intro a b same
  have divides := AdjoinRoot.mk_eq_mk.mp same
  have small : (poly a - poly b).degree < g.degree := by
    rw [degree]
    exact (degree_sub_le _ _).trans_lt (max_lt (degree_poly_lt a) (degree_poly_lt b))
  exact poly_injective (sub_eq_zero.mp (eq_zero_of_dvd_of_degree_lt divides small))

@[simp] theorem residue_zero : residue g (0 : BitVec w) = 0 := by
  rw [residue, poly_zero, map_zero]

@[simp] theorem residue_xor (a b : BitVec w) : residue g (a ^^^ b) = residue g a + residue g b := by
  rw [residue, poly_xor, map_add, residue, residue]

@[simp] theorem residue_vmull_p64 (a b : BitVec 64) : residue g (vmull_p64 a b) = residue g a * residue g b := by
  rw [residue, poly_vmull_p64, map_mul, residue, residue]

theorem residue_eq_sum (r : BitVec w) :
    residue g r = ∑ i ∈ Finset.range w, if r.getLsbD i then AdjoinRoot.root g ^ i else 0 := by
  rw [residue, poly, map_sum]
  apply Finset.sum_congr rfl
  intro i _
  rw [map_mul, map_pow, AdjoinRoot.mk_X]
  cases r.getLsbD i with
  | true => rw [coefficient, if_pos rfl, C_1, map_one, one_mul, if_pos rfl]
  | false => rw [coefficient, if_neg Bool.false_ne_true, C_0, map_zero, zero_mul, if_neg Bool.false_ne_true]

/-- Shifting by one place, when `X ^ w` is the residue of `low`. -/
theorem residue_shift_one {low : BitVec w} (positive : 0 < w) (folds : AdjoinRoot.root g ^ w = residue g low)
    (r : BitVec w) :
    residue g (if r.getLsbD (w - 1) then r <<< 1 ^^^ low else r <<< 1) = AdjoinRoot.root g * residue g r := by
  have shifted := congrArg (AdjoinRoot.mk g) (poly_shift_one r positive)
  rw [map_mul, map_add, map_mul, map_pow, AdjoinRoot.mk_X, folds] at shifted
  cases top : r.getLsbD (w - 1) with
  | true =>
      rw [top, coefficient, if_pos rfl, C_1, map_one, one_mul] at shifted
      rw [if_pos rfl, residue_xor]
      exact shifted.symm
  | false =>
      rw [top, coefficient, if_neg Bool.false_ne_true, C_0, map_zero, zero_mul, add_zero] at shifted
      rw [if_neg Bool.false_ne_true]
      exact shifted.symm

theorem residue_halves (r : Register) :
    residue g r = residue g (lane 64 r 0) + AdjoinRoot.root g ^ 64 * residue g (lane 64 r 1) := by
  rw [residue, poly_halves, map_add, map_mul, map_pow, AdjoinRoot.mk_X, residue, residue]

/-- Modulo `X ^ n + low`, the power `X ^ n` is `low`. -/
theorem root_pow_eq {n : Nat} {low : (ZMod 2)[X]} (parts : g = X ^ n + low) :
    AdjoinRoot.root g ^ n = AdjoinRoot.mk g low := by
  have zero : AdjoinRoot.mk g (X ^ n + low) = 0 := by rw [← parts, AdjoinRoot.mk_self]
  have twice : AdjoinRoot.mk g (low + low) = 0 := by
    rw [CharTwo.add_self_eq_zero, map_zero]
  rw [map_add, map_pow, AdjoinRoot.mk_X] at zero
  rw [map_add] at twice
  exact add_right_cancel (zero.trans twice.symm)

theorem degree_eq {n : Nat} {low : (ZMod 2)[X]} (small : low.degree < n) (parts : g = X ^ n + low) : g.degree = n := by
  have below : low.degree < ((X : (ZMod 2)[X]) ^ n).degree := by rwa [degree_X_pow]
  rw [parts, degree_add_eq_left_of_degree_lt below, degree_X_pow]

theorem residue_two : (2 : AdjoinRoot g) = 0 := by
  have two := congrArg (AdjoinRoot.mk g) two_eq_zero
  rwa [map_ofNat, map_zero] at two

end Residues

end Blindplane.Lib
