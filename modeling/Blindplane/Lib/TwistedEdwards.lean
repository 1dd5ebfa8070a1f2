import Mathlib.Algebra.Field.Basic
import Mathlib.Algebra.Group.Even
import Mathlib.Algebra.Ring.Commute
import Mathlib.Tactic.FieldSimp
import Mathlib.Tactic.LinearCombination
import Mathlib.Tactic.Ring

/-! # The twisted Edwards group

The points of `-x² + y² = 1 + d·x²·y²` over a field in which `-1` is a square and `d`
is not. The addition law then has no exceptions: its denominators never vanish, so it
is total, and the points form an abelian group. Associativity comes from exchanging the
outer two of three points, where the other addition law relates their numerators.
-/

namespace Blindplane.Lib

namespace TwistedEdwards

variable {F : Type*} [Field F]

/-- The parameters under which the addition law is complete. -/
class Complete (d : F) : Prop where
  two_ne_zero : (2 : F) ≠ 0
  neg_one : IsSquare (-1 : F)
  nonsquare : ¬ IsSquare d

/-- An affine point of the curve. -/
@[ext] structure Point (d : F) where
  x : F
  y : F
  onCurve : y ^ 2 - x ^ 2 = 1 + d * x ^ 2 * y ^ 2

variable {d : F}

/-- What both denominators of a sum are made of. -/
def cross (A B : Point d) : F := d * A.x * B.x * A.y * B.y

theorem cross_comm (A B : Point d) : cross A B = cross B A := by
  unfold cross
  ring

/-- A sum with a vanishing denominator would make `d` a square: it would be the ratio
    of two squares built from the square root of `-1`. -/
theorem cross_sq_ne_one [Complete d] (A B : Point d) : cross A B ^ 2 ≠ 1 := by
  intro degenerate
  obtain ⟨i, root⟩ := Complete.neg_one (d := d)
  have curveA := A.onCurve
  have curveB := B.onCurve
  have product : A.x * A.y ≠ 0 := by
    intro zero
    have vanishes : cross A B = 0 := by
      unfold cross
      linear_combination d * B.x * B.y * zero
    rw [vanishes] at degenerate
    simp at degenerate
  -- the two square roots, according to the sign in front of `B.y`
  have square : ∀ sign : F, sign ^ 2 = 1 →
      d * (A.x * A.y * (i * B.x + sign * B.y)) ^ 2 =
        (A.y + sign * i * cross A B * A.x) ^ 2 := by
    intro sign unit
    unfold cross at degenerate ⊢
    grind
  have vanish : ∀ sign : F, sign ^ 2 = 1 → i * B.x + sign * B.y = 0 := by
    intro sign unit
    by_contra nonzero
    refine Complete.nonsquare (d := d) ⟨(A.y + sign * i * cross A B * A.x) /
      (A.x * A.y * (i * B.x + sign * B.y)), ?_⟩
    have denominator := mul_ne_zero product nonzero
    rw [div_mul_div_comm, eq_div_iff (mul_ne_zero denominator denominator)]
    linear_combination square sign unit
  have plus := vanish 1 (by ring)
  have minus := vanish (-1) (by ring)
  have zero : B.y = 0 := by
    have double : 2 * B.y = 0 := by linear_combination plus - minus
    exact (mul_eq_zero.mp double).resolve_left (Complete.two_ne_zero (d := d))
  have crossZero : cross A B = 0 := by
    unfold cross
    rw [zero, mul_zero]
  rw [crossZero] at degenerate
  simp at degenerate

theorem one_add_cross_ne_zero [Complete d] (A B : Point d) : 1 + cross A B ≠ 0 :=
  fun zero => cross_sq_ne_one A B (by linear_combination (cross A B - 1) * zero)

theorem one_sub_cross_ne_zero [Complete d] (A B : Point d) : 1 - cross A B ≠ 0 :=
  fun zero => cross_sq_ne_one A B (by linear_combination (-1 - cross A B) * zero)

namespace Point

/-- The neutral point. -/
def zero : Point d where
  x := 0
  y := 1
  onCurve := by ring

/-- The point opposite to `A`. -/
def neg (A : Point d) : Point d where
  x := -A.x
  y := A.y
  onCurve := by linear_combination A.onCurve

variable [Complete d]

/-- The complete addition law. -/
def add (A B : Point d) : Point d where
  x := (A.x * B.y + A.y * B.x) / (1 + cross A B)
  y := (A.y * B.y + A.x * B.x) / (1 - cross A B)
  onCurve := by
    have plus := one_add_cross_ne_zero A B
    have minus := one_sub_cross_ne_zero A B
    have curveA := A.onCurve
    have curveB := B.onCurve
    rw [div_pow, div_pow]
    field_simp
    unfold cross
    grind

instance : Zero (Point d) := ⟨zero⟩

instance : Neg (Point d) := ⟨neg⟩

instance : Add (Point d) := ⟨add⟩

omit [Complete d] in
@[simp] theorem zero_x : (0 : Point d).x = 0 := rfl

omit [Complete d] in
@[simp] theorem zero_y : (0 : Point d).y = 1 := rfl

omit [Complete d] in
@[simp] theorem neg_x (A : Point d) : (-A).x = -A.x := rfl

omit [Complete d] in
@[simp] theorem neg_y (A : Point d) : (-A).y = A.y := rfl

theorem add_x (A B : Point d) : (A + B).x = (A.x * B.y + A.y * B.x) / (1 + cross A B) := rfl

theorem add_y (A B : Point d) : (A + B).y = (A.y * B.y + A.x * B.x) / (1 - cross A B) := rfl

/-- The coordinates of a sum, with the denominators multiplied out. -/
theorem add_x_mul (A B : Point d) : (A + B).x * (1 + cross A B) = A.x * B.y + A.y * B.x :=
  div_mul_cancel₀ _ (one_add_cross_ne_zero A B)

theorem add_y_mul (A B : Point d) : (A + B).y * (1 - cross A B) = A.y * B.y + A.x * B.x :=
  div_mul_cancel₀ _ (one_sub_cross_ne_zero A B)

protected theorem add_comm (A B : Point d) : A + B = B + A := by
  ext
  · rw [add_x, add_x, cross_comm]
    ring
  · rw [add_y, add_y, cross_comm]
    ring

protected theorem zero_add (A : Point d) : 0 + A = A := by
  ext
  · simp [add_x, cross]
  · simp [add_y, cross]

protected theorem neg_add (A : Point d) : -A + A = 0 := by
  have minus := one_sub_cross_ne_zero (-A) A
  ext
  · simp [add_x, mul_comm]
  · rw [add_y, zero_y, div_eq_one_iff_eq minus]
    simp only [cross, neg_x, neg_y]
    linear_combination A.onCurve

/-- The sum of three points, over one denominator for each coordinate. -/
def sumDenominator (A B C : Point d) (sign : F) : F :=
  1 - cross A B ^ 2 +
    sign * (d * C.x * C.y * ((A.x * B.y + A.y * B.x) * (A.y * B.y + A.x * B.x)))

theorem sumDenominator_eq (A B C : Point d) (sign : F) :
    sumDenominator A B C sign =
      (1 + cross A B) * (1 - cross A B) * (1 + sign * cross (A + B) C) := by
  have x := add_x_mul A B
  have y := add_y_mul A B
  unfold sumDenominator
  rw [← x, ← y, cross.eq_def (A + B) C]
  ring

theorem sumDenominator_ne_zero (A B C : Point d) {sign : F} (unit : sign = 1 ∨ sign = -1) :
    sumDenominator A B C sign ≠ 0 := by
  rw [sumDenominator_eq]
  refine mul_ne_zero (mul_ne_zero (one_add_cross_ne_zero A B) (one_sub_cross_ne_zero A B)) ?_
  rcases unit with rfl | rfl
  · simpa using one_add_cross_ne_zero (A + B) C
  · simpa [sub_eq_add_neg] using one_sub_cross_ne_zero (A + B) C

theorem sum_x (A B C : Point d) :
    (A + B + C).x * sumDenominator A B C 1 =
      (A.x * B.y + A.y * B.x) * (1 - cross A B) * C.y +
        (A.y * B.y + A.x * B.x) * (1 + cross A B) * C.x := by
  rw [sumDenominator_eq]
  linear_combination (1 + cross A B) * (1 - cross A B) * add_x_mul (A + B) C +
    (1 - cross A B) * C.y * add_x_mul A B + (1 + cross A B) * C.x * add_y_mul A B

theorem sum_y (A B C : Point d) :
    (A + B + C).y * sumDenominator A B C (-1) =
      (A.y * B.y + A.x * B.x) * (1 + cross A B) * C.y +
        (A.x * B.y + A.y * B.x) * (1 - cross A B) * C.x := by
  rw [sumDenominator_eq]
  linear_combination (1 + cross A B) * (1 - cross A B) * add_y_mul (A + B) C +
    (1 + cross A B) * C.y * add_y_mul A B + (1 - cross A B) * C.x * add_x_mul A B

section Dual

omit [Complete d]

/-- The numerators of a sum against those of the other addition law, whose formulas
    are made of the products `x·y`. -/
theorem numerator_x_dual (A C : Point d) :
    (A.x * C.y + A.y * C.x) * (A.y * C.y - A.x * C.x) =
      (A.x * A.y + C.x * C.y) * (1 + cross A C) := by
  unfold cross
  linear_combination A.x * A.y * C.onCurve + C.x * C.y * A.onCurve

theorem numerator_y_dual (A C : Point d) :
    (A.y * C.y + A.x * C.x) * (A.x * C.y - A.y * C.x) =
      (A.x * A.y - C.x * C.y) * (1 - cross A C) := by
  unfold cross
  linear_combination A.x * A.y * C.onCurve - C.x * C.y * A.onCurve

/-- The curve equations of both points, with the constant `d` eliminated. -/
theorem numerator_x_squares (A C : Point d) :
    (A.x * C.y + A.y * C.x) * ((A.x * A.y) ^ 2 - (C.x * C.y) ^ 2) =
      (A.x * C.y - A.y * C.x) * ((A.x * A.y) ^ 2 * (C.x ^ 2 + C.y ^ 2) +
        (C.x * C.y) ^ 2 * (A.x ^ 2 + A.y ^ 2)) +
      2 * (A.x * A.y * (C.x * C.y)) * (A.x * A.y - C.x * C.y) * (A.y * C.y - A.x * C.x) := by
  linear_combination (A.x * C.y + A.y * C.x) *
    ((C.x * C.y) ^ 2 * A.onCurve - (A.x * A.y) ^ 2 * C.onCurve)

theorem numerator_y_squares (A C : Point d) :
    (A.y * C.y + A.x * C.x) * ((A.x * A.y) ^ 2 - (C.x * C.y) ^ 2) =
      (A.y * C.y - A.x * C.x) * ((A.x * A.y) ^ 2 * (C.x ^ 2 + C.y ^ 2) -
        (C.x * C.y) ^ 2 * (A.x ^ 2 + A.y ^ 2)) +
      2 * (A.x * A.y * (C.x * C.y)) * (A.x * A.y + C.x * C.y) * (A.x * C.y - A.y * C.x) := by
  linear_combination (A.y * C.y + A.x * C.x) *
    ((C.x * C.y) ^ 2 * A.onCurve - (A.x * A.y) ^ 2 * C.onCurve)

/-- Exchanging the outer two of three points, cross-multiplied. The difference of the two
    sides is `d·x·y` of the middle point times a combination of the four identities above. -/
theorem sum_x_swap (A B C : Point d) :
    ((A.x * B.y + A.y * B.x) * (1 - cross A B) * C.y +
        (A.y * B.y + A.x * B.x) * (1 + cross A B) * C.x) * sumDenominator C B A 1 =
      ((C.x * B.y + C.y * B.x) * (1 - cross C B) * A.y +
        (C.y * B.y + C.x * B.x) * (1 + cross C B) * A.x) * sumDenominator A B C 1 := by
  have dualX := numerator_x_dual A C
  have dualY := numerator_y_dual A C
  have squaresX := numerator_x_squares A C
  have squaresY := numerator_y_squares A C
  simp only [sumDenominator, cross] at *
  linear_combination d * B.x * B.y *
    (B.x * (A.y * C.y - A.x * C.x) * dualY + B.y * (A.x * C.y - A.y * C.x) * dualX +
      d * B.x * B.y * (B.x * squaresY + B.y * squaresX) +
      d * A.x * A.y * C.x * C.y *
        (B.x * (A.y * C.y - A.x * C.x) * (A.x * A.y - C.x * C.y) -
          B.y * (A.x * C.y - A.y * C.x) * (A.x * A.y + C.x * C.y)) * B.onCurve)

theorem sum_y_swap (A B C : Point d) :
    ((A.y * B.y + A.x * B.x) * (1 + cross A B) * C.y +
        (A.x * B.y + A.y * B.x) * (1 - cross A B) * C.x) * sumDenominator C B A (-1) =
      ((C.y * B.y + C.x * B.x) * (1 + cross C B) * A.y +
        (C.x * B.y + C.y * B.x) * (1 - cross C B) * A.x) * sumDenominator A B C (-1) := by
  have dualX := numerator_x_dual A C
  have dualY := numerator_y_dual A C
  have squaresX := numerator_x_squares A C
  have squaresY := numerator_y_squares A C
  simp only [sumDenominator, cross] at *
  linear_combination -d * B.x * B.y *
    (B.y * (A.y * C.y - A.x * C.x) * dualY + B.x * (A.x * C.y - A.y * C.x) * dualX -
      d * B.x * B.y * (B.y * squaresY + B.x * squaresX) +
      d * A.x * A.y * C.x * C.y *
        (B.y * (A.y * C.y - A.x * C.x) * (A.x * A.y - C.x * C.y) -
          B.x * (A.x * C.y - A.y * C.x) * (A.x * A.y + C.x * C.y)) * B.onCurve)

end Dual

/-- The outer two of three points can be exchanged. -/
theorem sum_swap (A B C : Point d) : A + B + C = C + B + A := by
  ext
  · have left := sumDenominator_ne_zero A B C (.inl rfl)
    have right := sumDenominator_ne_zero C B A (.inl rfl)
    rw [eq_div_of_mul_eq left (sum_x A B C), eq_div_of_mul_eq right (sum_x C B A),
      div_eq_div_iff left right]
    exact sum_x_swap A B C
  · have left := sumDenominator_ne_zero A B C (.inr rfl)
    have right := sumDenominator_ne_zero C B A (.inr rfl)
    rw [eq_div_of_mul_eq left (sum_y A B C), eq_div_of_mul_eq right (sum_y C B A),
      div_eq_div_iff left right]
    exact sum_y_swap A B C

protected theorem add_assoc (A B C : Point d) : A + B + C = A + (B + C) := by
  rw [sum_swap, Point.add_comm (C + B) A, Point.add_comm C B]

instance : AddCommGroup (Point d) where
  add_assoc := Point.add_assoc
  zero_add := Point.zero_add
  add_zero A := by rw [Point.add_comm, Point.zero_add]
  neg_add_cancel := Point.neg_add
  add_comm := Point.add_comm
  nsmul := nsmulRec
  zsmul := zsmulRec

end Point

end TwistedEdwards

end Blindplane.Lib
