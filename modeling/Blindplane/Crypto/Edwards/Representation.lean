import Blindplane.Crypto.Edwards.Vartime

/-! # Representations of points

Coordinates represent a point when they satisfy the projective curve equation over a `z`
that is not zero. Every route to a sum keeps that, and gives the affine point of the
complete addition law; and of all encodings of a point only one is accepted.
-/

namespace Blindplane.Crypto

open Lib Lib.TwistedEdwards Curve25519

/-- The representation invariant of extended coordinates. -/
structure EdwardsPoint.Valid (p : EdwardsPoint) : Prop where
  z : p.z.val ≠ 0
  t : p.x.val * p.y.val = p.z.val * p.t.val
  curve : (p.y.val ^ 2 - p.x.val ^ 2) * p.z.val ^ 2 = p.z.val ^ 4 + d * p.x.val ^ 2 * p.y.val ^ 2

/-- The representation invariant of projective coordinates. -/
structure ProjectivePoint.Valid (p : ProjectivePoint) : Prop where
  z : p.z.val ≠ 0
  curve : (p.y.val ^ 2 - p.x.val ^ 2) * p.z.val ^ 2 = p.z.val ^ 4 + d * p.x.val ^ 2 * p.y.val ^ 2

/-- The affine coordinates. -/
def EdwardsPoint.affine (p : EdwardsPoint) : F × F := (p.x.val / p.z.val, p.y.val / p.z.val)

def ProjectivePoint.affine (p : ProjectivePoint) : F × F := (p.x.val / p.z.val, p.y.val / p.z.val)

/-- The complete addition law on affine coordinates. -/
def edwardsSum (a b : F × F) : F × F :=
  ((a.1 * b.2 + b.1 * a.2) / (1 + d * a.1 * b.1 * a.2 * b.2),
    (a.2 * b.2 + a.1 * b.1) / (1 - d * a.1 * b.1 * a.2 * b.2))

def edwardsNeg (a : F × F) : F × F := (-a.1, a.2)

/-- Valid coordinates of an affine point. -/
def EdwardsPoint.Represents (p : EdwardsPoint) (a : F × F) : Prop := p.Valid ∧ p.affine = a

/-- Valid coordinates of an affine point, whichever ones the completed sum is turned into. -/
def CompletedPoint.Represents (c : CompletedPoint) (a : F × F) : Prop :=
  c.toExtended.Represents a ∧ c.toProjective.Valid ∧ c.toProjective.affine = a

section Denotation

variable {A B : Point}

/-- The projective curve equation is the affine one. -/
private theorem affine_curve {x y z : F} (nonzero : z ≠ 0)
    (curve : (y ^ 2 - x ^ 2) * z ^ 2 = z ^ 4 + d * x ^ 2 * y ^ 2) :
    (y / z) ^ 2 - (x / z) ^ 2 = 1 + d * (x / z) ^ 2 * (y / z) ^ 2 := by
  field_simp
  linear_combination curve

private theorem projective_curve (A : Point) (z : F) :
    ((A.y * z) ^ 2 - (A.x * z) ^ 2) * z ^ 2 = z ^ 4 + d * (A.x * z) ^ 2 * (A.y * z) ^ 2 := by
  linear_combination z ^ 4 * A.onCurve

theorem ProjectivePoint.valid_iff {p : ProjectivePoint} : p.Valid ↔ ∃ A, p.Denotes A := by
  constructor
  · intro valid
    refine ⟨⟨p.x.val / p.z.val, p.y.val / p.z.val, affine_curve valid.z valid.curve⟩, valid.z, ?_, ?_⟩
    · exact (div_mul_cancel₀ _ valid.z).symm
    · exact (div_mul_cancel₀ _ valid.z).symm
  · intro ⟨A, denotes⟩
    refine ⟨denotes.z, ?_⟩
    rw [denotes.x, denotes.y]
    exact projective_curve A p.z.val

theorem EdwardsPoint.valid_iff {p : EdwardsPoint} : p.Valid ↔ ∃ A, p.Denotes A := by
  constructor
  · intro valid
    refine ⟨⟨p.x.val / p.z.val, p.y.val / p.z.val, affine_curve valid.z valid.curve⟩, valid.z, ?_, ?_, ?_⟩
    · exact (div_mul_cancel₀ _ valid.z).symm
    · exact (div_mul_cancel₀ _ valid.z).symm
    · have nonzero := valid.z
      field_simp
      linear_combination -valid.t
  · intro ⟨A, denotes⟩
    refine ⟨denotes.z, ?_, ?_⟩
    · rw [denotes.x, denotes.y, denotes.t]
      ring
    · rw [denotes.x, denotes.y]
      exact projective_curve A p.z.val

theorem EdwardsPoint.Denotes.affine {p : EdwardsPoint} (denotes : p.Denotes A) : p.affine = (A.x, A.y) := by
  rw [EdwardsPoint.affine, denotes.x, denotes.y, mul_div_cancel_right₀ _ denotes.z, mul_div_cancel_right₀ _ denotes.z]

theorem ProjectivePoint.Denotes.affine {p : ProjectivePoint} (denotes : p.Denotes A) : p.affine = (A.x, A.y) := by
  rw [ProjectivePoint.affine, denotes.x, denotes.y, mul_div_cancel_right₀ _ denotes.z,
    mul_div_cancel_right₀ _ denotes.z]

theorem EdwardsPoint.Denotes.represents {p : EdwardsPoint} (denotes : p.Denotes A) : p.Represents (A.x, A.y) :=
  ⟨EdwardsPoint.valid_iff.mpr ⟨A, denotes⟩, denotes.affine⟩

theorem CompletedPoint.Denotes.represents {c : CompletedPoint} (denotes : c.Denotes A) :
    c.Represents (A.x, A.y) :=
  ⟨denotes.toExtended.represents, ProjectivePoint.valid_iff.mpr ⟨A, denotes.toProjective⟩,
    denotes.toProjective.affine⟩

/-- The law on affine coordinates is the addition of points. -/
theorem edwardsSum_eq (A B : Point) : edwardsSum (A.x, A.y) (B.x, B.y) = ((A + B).x, (A + B).y) := by
  have product : d * A.x * B.x * A.y * B.y = cross A B := by
    rw [cross]
  rw [edwardsSum, Point.add_x, Point.add_y, product, mul_comm B.x A.y]

end Denotation

namespace EdwardsPoint

/-- Every route to a sum or a double keeps the invariant and arrives at the affine point of
    the complete law. -/
theorem routes_agree {p q : EdwardsPoint} (hp : p.Valid) (hq : q.Valid) :
    (p.add q).Represents (edwardsSum p.affine q.affine) ∧
    (p.sub q).Represents (edwardsSum p.affine (edwardsNeg q.affine)) ∧
    p.double.Represents (edwardsSum p.affine p.affine) ∧
    p.negate.Represents (edwardsNeg p.affine) ∧
    (p.addProjectiveNiels q.toProjectiveNiels).Represents (edwardsSum p.affine q.affine) ∧
    (p.addProjectiveNiels q.toProjectiveNiels.negate).Represents (edwardsSum p.affine (edwardsNeg q.affine)) ∧
    (∀ zInverse : Fe, zInverse.val = q.z.val⁻¹ →
      (p.addAffineNiels (q.toAffineNiels zInverse)).Represents (edwardsSum p.affine q.affine) ∧
      (p.addAffineNiels (q.toAffineNiels zInverse).negate).Represents
        (edwardsSum p.affine (edwardsNeg q.affine))) ∧
    (∀ r : ProjectivePoint, r.Valid → r.double.Represents (edwardsSum r.affine r.affine)) ∧
    (ProjectivePoint.mk p.x p.y p.z).double.Represents p.double.affine := by
  obtain ⟨A, hA⟩ := valid_iff.mp hp
  obtain ⟨B, hB⟩ := valid_iff.mp hq
  have opposite : edwardsNeg (B.x, B.y) = ((-B).x, (-B).y) := rfl
  rw [hA.affine, hB.affine, opposite, edwardsSum_eq, edwardsSum_eq, edwardsSum_eq, hA.double.affine]
  refine ⟨(hA.add hB).represents, (hA.add hB.negate).represents, hA.double.represents, hA.negate.represents,
    (hA.addProjectiveNiels hB.toProjectiveNiels).represents,
    (hA.addProjectiveNiels hB.toProjectiveNiels.negate).represents, fun zInverse inverse => ⟨?_, ?_⟩,
    fun r valid => ?_, ?_⟩
  · exact (hA.addAffineNiels (hB.toAffineNiels inverse)).represents
  · exact (hA.addAffineNiels (hB.toAffineNiels inverse).negate).represents
  · obtain ⟨C, denotes⟩ := ProjectivePoint.valid_iff.mp valid
    rw [denotes.affine, edwardsSum_eq]
    exact denotes.double.represents
  · have projective : (ProjectivePoint.mk p.x p.y p.z).Denotes A := ⟨hA.z, hA.x, hA.y⟩
    exact projective.double.represents

/-- The base point added to itself. -/
theorem routes_agree_basepoint :
    (BASEPOINT.add BASEPOINT).Represents (edwardsSum BASEPOINT.affine BASEPOINT.affine) :=
  (routes_agree (valid_iff.mpr ⟨_, BASEPOINT_denotes⟩) (valid_iff.mpr ⟨_, BASEPOINT_denotes⟩)).1

/-- What is decompressed has `Z = 1` and its `T` formed. -/
theorem decompress_form {bytes : Vector UInt8 32} {p : EdwardsPoint} (found : decompress bytes = some p) :
    p.z = Fe.ONE ∧ p.t = p.x.mul p.y := by
  simp only [decompress, recoverX] at found
  split at found
  · cases found
  · split at found
    · cases found
    · split at found
      · cases found
      · obtain rfl := Option.some.inj found
        exact ⟨rfl, rfl⟩

/-- The encoding only looks at the three projective coordinates. -/
theorem compress_eq_encode {p : EdwardsPoint} {A : Point} (denotes : (ProjectivePoint.mk p.x p.y p.z).Denotes A) :
    p.compress = encode A := by
  have formed : ∃ t : Fe, t.val = A.x * A.y * p.z.val := by
    refine ⟨(p.x.mul p.y).mul p.z.invert, ?_⟩
    have nonzero : p.z.val ≠ 0 := denotes.z
    rw [Fe.mul_val, Fe.mul_val, Fe.invert_val, denotes.x, denotes.y]
    field_simp
  obtain ⟨t, value⟩ := formed
  have extended : (EdwardsPoint.mk p.x p.y p.z t).Denotes A := ⟨denotes.z, denotes.x, denotes.y, value⟩
  exact extended.compress

/-- Every point has exactly one accepted encoding, and decompression and compression take
    the one to the other. -/
theorem decompress_exact :
    (∀ (b : Vector UInt8 32) (p : EdwardsPoint), decompress b = some p →
      p.z = Fe.ONE ∧ p.t = p.x.mul p.y ∧
        -p.x.val ^ 2 + p.y.val ^ 2 = 1 + d * p.x.val ^ 2 * p.y.val ^ 2 ∧ p.compress = b) ∧
    (∀ p : EdwardsPoint, (ProjectivePoint.mk p.x p.y p.z).Valid →
      ∃ q, decompress p.compress = some q ∧ q.x.val * p.z.val = p.x.val * q.z.val ∧
        q.y.val * p.z.val = p.y.val * q.z.val) ∧
    (∀ A : Point, ∃! b : Vector UInt8 32, ∃ p, decompress b = some p ∧ p.Denotes A) ∧
    (∀ (b b' : Vector UInt8 32) (p p' : EdwardsPoint), decompress b = some p → decompress b' = some p' →
      p.affine = p'.affine → b = b') := by
  refine ⟨fun b p found => ?_, fun p valid => ?_, fun A => ?_, fun b b' p p' found found' same => ?_⟩
  · obtain ⟨z, t⟩ := decompress_form found
    obtain ⟨A, denotes, encoded⟩ := decompress_sound found
    have x := denotes.x
    have y := denotes.y
    rw [z, Fe.ONE_val, mul_one] at x y
    refine ⟨z, t, ?_, denotes.compress.trans encoded⟩
    rw [x, y]
    linear_combination A.onCurve
  · obtain ⟨A, denotes⟩ := ProjectivePoint.valid_iff.mp valid
    have encoded := compress_eq_encode denotes
    obtain ⟨q, found⟩ := decompress_complete encoded.symm
    obtain ⟨B, denotesB, same⟩ := decompress_sound found
    obtain rfl := encode_injective (same.trans encoded)
    refine ⟨q, found, ?_, ?_⟩
    · have x : p.x.val = B.x * p.z.val := denotes.x
      rw [denotesB.x, x]
      ring
    · have y : p.y.val = B.y * p.z.val := denotes.y
      rw [denotesB.y, y]
      ring
  · obtain ⟨p, found⟩ := decompress_complete (show encode A = encode A from rfl)
    obtain ⟨B, denotes, same⟩ := decompress_sound found
    obtain rfl := encode_injective same
    refine ⟨encode B, ⟨p, found, denotes⟩, ?_⟩
    rintro b ⟨q, foundQ, denotesQ⟩
    obtain ⟨C, denotesC, encoded⟩ := decompress_sound foundQ
    rw [← encoded, ← denotesC.compress, ← denotesQ.compress]
  · obtain ⟨A, denotes, encoded⟩ := decompress_sound found
    obtain ⟨B, denotes', encoded'⟩ := decompress_sound found'
    rw [denotes.affine, denotes'.affine, Prod.mk.injEq] at same
    rw [← encoded, ← encoded', TwistedEdwards.Point.ext same.1 same.2]

end EdwardsPoint

end Blindplane.Crypto
