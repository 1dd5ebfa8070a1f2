import Blindplane.Lib.TwistedEdwards

/-! # Differential addition

The u-coordinate of a point of a twisted Edwards curve forgets its sign. A ratio of two
numbers can stand for it, for the neutral point too; from the ratios of two points and of
their difference, that of the sum follows, and a point doubles on its own.
-/

namespace Blindplane.Lib.TwistedEdwards.Point

variable {F : Type*} [Field F] {d : F}

/-- The u-coordinate, zero for the neutral point. -/
def u (A : Point d) : F := (1 + A.y) / (1 - A.y)

/-- The ratio `X : Z` is that of the u-coordinate. -/
structure HasU (A : Point d) (X Z : F) : Prop where
  nonzero : X ≠ 0 ∨ Z ≠ 0
  ratio : X * (1 - A.y) = Z * (1 + A.y)

theorem HasU.neg {A : Point d} {X Z : F} (has : A.HasU X Z) : (-A).HasU X Z := ⟨has.nonzero, has.ratio⟩

variable [Complete d]

theorem one_add_d_ne_zero : 1 + d ≠ 0 := by
  intro zero
  have minus : d = -1 := by linear_combination zero
  exact Complete.nonsquare (d := d) (minus ▸ Complete.neg_one (d := d))

theorem one_add_d_mul_sq_ne_zero (y : F) : 1 + d * y ^ 2 ≠ 0 := by
  intro zero
  obtain ⟨i, root⟩ := Complete.neg_one (d := d)
  have nonzero : y ≠ 0 := by
    rintro rfl
    simp at zero
  refine Complete.nonsquare (d := d) ⟨i / y, ?_⟩
  rw [div_mul_div_comm, eq_div_iff (mul_ne_zero nonzero nonzero)]
  linear_combination zero + root

/-- One number scales both halves of the ratio. -/
theorem HasU.scale {A : Point d} {X Z : F} (has : A.HasU X Z) :
    ∃ c, c ≠ 0 ∧ X = c * (1 + A.y) ∧ Z = c * (1 - A.y) := by
  have two := Complete.two_ne_zero (d := d)
  have ratio := has.ratio
  have first : X = (X + Z) / 2 * (1 + A.y) := by
    field_simp
    linear_combination ratio
  have second : Z = (X + Z) / 2 * (1 - A.y) := by
    field_simp
    linear_combination -ratio
  refine ⟨(X + Z) / 2, ?_, first, second⟩
  intro zero
  rw [zero, zero_mul] at first second
  exact has.nonzero.elim (· first) (· second)

omit [Complete d] in
theorem hasU_zero {X : F} (nonzero : X ≠ 0) : (0 : Point d).HasU X 0 := by
  refine ⟨.inl nonzero, ?_⟩
  rw [zero_y]
  ring

/-- What the ratio comes to. -/
theorem HasU.div_eq {A : Point d} {X Z : F} (has : A.HasU X Z) : X / Z = A.u := by
  obtain ⟨c, nonzero, rfl, rfl⟩ := has.scale
  exact mul_div_mul_left _ _ nonzero

omit [Complete d] in
theorem hasU_u {A : Point d} (finite : A.y ≠ 1) : A.HasU A.u 1 := by
  have nonzero : 1 - A.y ≠ 0 := sub_ne_zero.mpr finite.symm
  refine ⟨.inr one_ne_zero, ?_⟩
  rw [u, div_mul_cancel₀ _ nonzero, one_mul]

section Exceptions

omit [Complete d] in
theorem u_eq_zero_iff {A : Point d} : A.u = 0 ↔ A.y = -1 ∨ A.y = 1 := by
  rw [u, div_eq_zero_iff, sub_eq_zero, @eq_comm _ 1 A.y, add_comm, add_eq_zero_iff_eq_neg]

/-- Only the neutral point and the point of order two have no u-coordinate but zero. -/
theorem double_eq_zero {A : Point d} (exception : A.u = 0) : A + A = 0 := by
  have unit : A.y ^ 2 = 1 := by
    rcases u_eq_zero_iff.mp exception with low | high
    · rw [low]
      ring
    · rw [high]
      ring
  have x : A.x = 0 := by
    have vanish : (1 + d) * A.x ^ 2 = 0 := by linear_combination -A.onCurve + (1 - d * A.x ^ 2) * unit
    exact pow_eq_zero_iff two_ne_zero |>.mp ((mul_eq_zero.mp vanish).resolve_left one_add_d_ne_zero)
  have cross : cross A A = 0 := by rw [TwistedEdwards.cross, x]; ring
  ext
  · rw [add_x, x, zero_x]
    ring
  · rw [add_y, cross, x, zero_y]
    linear_combination unit

/-- Elsewhere the u-coordinate is that of a point and its opposite only. -/
theorem eq_or_eq_neg_of_u {A B : Point d} (same : A.u = B.u) (regular : A.u ≠ 0) : A = B ∨ A = -B := by
  obtain ⟨-, finiteA⟩ := not_or.mp fun exception => regular (u_eq_zero_iff.mpr exception)
  obtain ⟨-, finiteB⟩ := not_or.mp fun exception => regular (same.trans (u_eq_zero_iff.mpr exception))
  have two := Complete.two_ne_zero (d := d)
  have y : A.y = B.y := by
    have left : 1 - A.y ≠ 0 := sub_ne_zero.mpr (Ne.symm finiteA)
    have right : 1 - B.y ≠ 0 := sub_ne_zero.mpr (Ne.symm finiteB)
    rw [u, u, div_eq_div_iff left right] at same
    have double : 2 * (A.y - B.y) = 0 := by linear_combination same
    exact sub_eq_zero.mp ((mul_eq_zero.mp double).resolve_left two)
  have squares : A.x ^ 2 = B.x ^ 2 := by
    have curveA := A.onCurve
    have curveB := B.onCurve
    rw [y] at curveA
    have scaled : (1 + d * B.y ^ 2) * (A.x ^ 2 - B.x ^ 2) = 0 := by linear_combination curveB - curveA
    exact sub_eq_zero.mp ((mul_eq_zero.mp scaled).resolve_left (one_add_d_mul_sq_ne_zero B.y))
  rcases sq_eq_sq_iff_eq_or_eq_neg.mp squares with x | x
  · exact .inl (Point.ext x y)
  · exact .inr (Point.ext x y)

end Exceptions

section Addition

/-- Doubling by the ratio: `a24` is a quarter of the Montgomery coefficient less two. -/
theorem HasU.double {A : Point d} {X Z a24 : F} (has : A.HasU X Z) (coefficient : (1 + d) * a24 = -d) :
    let AA := (X + Z) ^ 2
    let BB := (X - Z) ^ 2
    let E := AA - BB
    (A + A).HasU (AA * BB) (E * (AA + a24 * E)) := by
  intro AA BB E
  obtain ⟨c, scaled, rfl, rfl⟩ := has.scale
  have two := Complete.two_ne_zero (d := d)
  have curve := A.onCurve
  have whole := one_add_d_ne_zero (d := d)
  have first : AA * BB = 16 * c ^ 4 * A.y ^ 2 := by ring
  have second : E * (AA + a24 * E) = 16 * c ^ 4 * ((1 - A.y ^ 2) * (1 + a24 * (1 - A.y ^ 2))) := by ring
  have scale : 16 * c ^ 4 ≠ 0 := by
    have power : (16 : F) = 2 ^ 4 := by norm_num
    rw [power]
    exact mul_ne_zero (pow_ne_zero 4 two) (pow_ne_zero 4 scaled)
  -- the curve equation, in the form that the doubling uses
  have square : A.y ^ 2 = (1 + a24 * (1 - A.y ^ 2)) * (1 + A.x ^ 2) := by
    apply mul_left_cancel₀ whole
    linear_combination curve - (1 - A.y ^ 2) * (1 + A.x ^ 2) * coefficient
  rw [first, second]
  constructor
  · by_contra both
    obtain ⟨none, rest⟩ := not_or.mp both
    have y : A.y ^ 2 = 0 := (mul_eq_zero.mp (not_not.mp none)).resolve_left scale
    have last := (mul_eq_zero.mp (not_not.mp rest)).resolve_left scale
    rw [y, sub_zero, one_mul, mul_one] at last
    have one : (1 + d) * (1 + a24) = 1 := by linear_combination coefficient
    rw [last, mul_zero] at one
    exact zero_ne_one one
  · have sum := add_y_mul A A
    have denominator := one_sub_cross_ne_zero A A
    have cross : cross A A = A.y ^ 2 - A.x ^ 2 - 1 := by
      rw [TwistedEdwards.cross]
      linear_combination -curve
    rw [cross] at sum denominator
    apply mul_right_cancel₀ denominator
    linear_combination (16 * c ^ 4) * ((-A.y ^ 2 - (1 - A.y ^ 2) * (1 + a24 * (1 - A.y ^ 2))) * sum +
      2 * (1 - A.y ^ 2) * square)

/-- The sum by the ratios of two points and of their difference. -/
theorem HasU.add {A B : Point d} {X Z X' Z' u : F} (hasA : A.HasU X Z) (hasB : B.HasU X' Z')
    (difference : (B - A).HasU u 1) (regular : u ≠ 0) :
    let DA := (X' - Z') * (X + Z)
    let CB := (X' + Z') * (X - Z)
    (A + B).HasU ((DA + CB) ^ 2) (u * (DA - CB) ^ 2) := by
  intro DA CB
  obtain ⟨c, scaled, rfl, rfl⟩ := hasA.scale
  obtain ⟨c', scaled', rfl, rfl⟩ := hasB.scale
  have two := Complete.two_ne_zero (d := d)
  have curveA := A.onCurve
  have curveB := B.onCurve
  have first : (DA + CB) ^ 2 = 16 * (c * c') ^ 2 * (B.y + A.y) ^ 2 := by ring
  have second : (DA - CB) ^ 2 = 16 * (c * c') ^ 2 * (B.y - A.y) ^ 2 := by ring
  have scale : 16 * (c * c') ^ 2 ≠ 0 := by
    have power : (16 : F) = 2 ^ 4 := by norm_num
    rw [power]
    exact mul_ne_zero (pow_ne_zero 4 two) (pow_ne_zero 2 (mul_ne_zero scaled scaled'))
  have minusY : (B - A).y * (1 + cross A B) = A.y * B.y - A.x * B.x := by
    have sum := add_y_mul B (-A)
    simp only [TwistedEdwards.cross, neg_x, neg_y] at sum
    rw [sub_eq_add_neg, TwistedEdwards.cross]
    linear_combination sum
  have plusY := add_y_mul A B
  have ratio := difference.ratio
  rw [one_mul] at ratio
  rw [first, second]
  constructor
  · by_contra both
    obtain ⟨none, rest⟩ := not_or.mp both
    have sum := pow_eq_zero_iff two_ne_zero |>.mp ((mul_eq_zero.mp (not_not.mp none)).resolve_left scale)
    have gap := pow_eq_zero_iff two_ne_zero |>.mp ((mul_eq_zero.mp
      ((mul_eq_zero.mp (not_not.mp rest)).resolve_left regular)).resolve_left scale)
    -- two points with `y = 0` differ by the neutral point or by that of order two
    have yA : A.y = 0 := (mul_eq_zero.mp (by linear_combination sum - gap : 2 * A.y = 0)).resolve_left two
    have yB : B.y = 0 := by linear_combination sum - yA
    rw [yA] at curveA
    rw [yB] at curveB
    have unit : (B - A).y ^ 2 = 1 := by
      rw [TwistedEdwards.cross, yA, yB] at minusY
      linear_combination ((B - A).y - A.x * B.x) * minusY - B.x ^ 2 * curveA + curveB
    rcases sq_eq_one_iff.mp unit with high | low
    · rw [high, sub_self, mul_zero, one_add_one_eq_two] at ratio
      exact two ratio.symm
    · rw [low] at ratio
      have vanish : 2 * u = 0 := by linear_combination ratio
      exact regular ((mul_eq_zero.mp vanish).resolve_left two)
  · have finite : 1 - (B - A).y ≠ 0 := by
      intro zero
      rw [zero, mul_zero] at ratio
      exact two (by linear_combination zero - ratio)
    have denominators := mul_ne_zero (one_sub_cross_ne_zero A B) (one_add_cross_ne_zero A B)
    have curves : 1 - cross A B ^ 2 + (A.y * B.y) ^ 2 - (A.x * B.x) ^ 2 =
        (A.y ^ 2 + B.y ^ 2) * (1 + d * (A.x * B.x) ^ 2) := by
      rw [TwistedEdwards.cross]
      linear_combination (B.y ^ 2 - 1) * curveA + (d * A.x ^ 2 * A.y ^ 2 + A.x ^ 2) * curveB
    have unfolded : cross A B = d * (A.y * B.y) * (A.x * B.x) := by
      rw [TwistedEdwards.cross]
      ring
    -- the same without `u`: its equation is that of the difference
    have product : (B.y + A.y) ^ 2 * (1 - (A + B).y) * (1 - (B - A).y) =
        (B.y - A.y) ^ 2 * (1 + (A + B).y) * (1 + (B - A).y) := by
      apply mul_left_cancel₀ denominators
      linear_combination 4 * (A.y * B.y) * curves - 4 * (A.y ^ 2 + B.y ^ 2) * (A.x * B.x) * unfolded -
        ((B.y + A.y) ^ 2 * (1 + cross A B - (A.y * B.y - A.x * B.x)) +
          (B.y - A.y) ^ 2 * (1 + cross A B + (A.y * B.y - A.x * B.x))) * plusY -
        ((B.y + A.y) ^ 2 * ((1 - cross A B) * (1 - (A + B).y)) +
          (B.y - A.y) ^ 2 * ((1 - cross A B) * (1 + (A + B).y))) * minusY
    apply mul_left_cancel₀ finite
    linear_combination 16 * (c * c') ^ 2 * product - 16 * (c * c') ^ 2 * (B.y - A.y) ^ 2 * (1 + (A + B).y) * ratio

end Addition

end Blindplane.Lib.TwistedEdwards.Point
