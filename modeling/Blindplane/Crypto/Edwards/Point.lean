import Blindplane.Crypto.Field.Encoding

/-! # Points in coordinates

A point is held in extended coordinates, in projective ones while only doublings follow,
as a completed sum whose products are still to be formed, and in two cached forms for
repeated addition. What each form denotes is a point of the curve, and every formula
computes the sum of what it is given.
-/

namespace Blindplane.Crypto

open Lib Lib.TwistedEdwards Curve25519

/-- The curve constant `d = -121665/121666`. -/
def D : Fe where
  limbs := ⟨0x00034dca135978a3, 0x0001a8283b156ebd, 0x0005e7a26001c029, 0x000739c663a03cbb,
    0x00052036cee2b6ff⟩
  reduced := by decide

/-- `2*d`, the constant the extended addition law needs. -/
def D2 : Fe where
  limbs := ⟨0x00069b9426b2f159, 0x00035050762add7a, 0x0003cf44c0038052, 0x0006738cc7407977,
    0x0002406d9dc56dff⟩
  reduced := by decide

@[simp] theorem D_val : D.val = d := by
  have same : D.limbs.value = dResidue := by norm_num [D, Limbs.value, dResidue]
  rw [Fe.val, same, d]

@[simp] theorem D2_val : D2.val = 2 * d := by
  have same : D2.limbs.value % P = 2 * dResidue % P := by norm_num [D2, Limbs.value, dResidue, P]
  rw [Fe.val, (ZMod.natCast_eq_natCast_iff' _ _ P).mpr same, Nat.cast_mul, Nat.cast_ofNat, d]

/-- A point on the Edwards form of Curve25519. -/
structure EdwardsPoint where
  x : Fe
  y : Fe
  z : Fe
  t : Fe

/-- A point in projective coordinates `(X:Y:Z)`. -/
structure ProjectivePoint where
  x : Fe
  y : Fe
  z : Fe

/-- An addition or doubling result before multiplying back into a concrete
    representation: `x = E/G`, `y = H/F`. -/
structure CompletedPoint where
  e : Fe
  h : Fe
  f : Fe
  g : Fe

/-- A point cached for repeated addition: `Y+X`, `Y-X`, `Z`, `2d*T`. -/
structure ProjectiveNiels where
  yPlusX : Fe
  yMinusX : Fe
  z : Fe
  t2d : Fe

/-- A point with `Z = 1`, cached as `Y+X`, `Y-X`, `2d*X*Y`. -/
structure AffineNiels where
  yPlusX : Fe
  yMinusX : Fe
  xy2d : Fe

/-- The coordinates are those of the point, over `z`. -/
structure EdwardsPoint.Denotes (p : EdwardsPoint) (A : Point) : Prop where
  z : p.z.val ≠ 0
  x : p.x.val = A.x * p.z.val
  y : p.y.val = A.y * p.z.val
  t : p.t.val = A.x * A.y * p.z.val

structure ProjectivePoint.Denotes (p : ProjectivePoint) (A : Point) : Prop where
  z : p.z.val ≠ 0
  x : p.x.val = A.x * p.z.val
  y : p.y.val = A.y * p.z.val

structure CompletedPoint.Denotes (c : CompletedPoint) (A : Point) : Prop where
  f : c.f.val ≠ 0
  g : c.g.val ≠ 0
  e : c.e.val = A.x * c.g.val
  h : c.h.val = A.y * c.f.val

structure ProjectiveNiels.Denotes (n : ProjectiveNiels) (A : Point) : Prop where
  z : n.z.val ≠ 0
  yPlusX : n.yPlusX.val = (A.y + A.x) * n.z.val
  yMinusX : n.yMinusX.val = (A.y - A.x) * n.z.val
  t2d : n.t2d.val = 2 * d * A.x * A.y * n.z.val

structure AffineNiels.Denotes (n : AffineNiels) (A : Point) : Prop where
  yPlusX : n.yPlusX.val = A.y + A.x
  yMinusX : n.yMinusX.val = A.y - A.x
  xy2d : n.xy2d.val = 2 * d * A.x * A.y

namespace CompletedPoint

/-- Three multiplies; enough when the next operation is a doubling. -/
def toProjective (c : CompletedPoint) : ProjectivePoint where
  x := c.e.mul c.f
  y := c.g.mul c.h
  z := c.f.mul c.g

/-- Four multiplies; needed when the next operation is an addition. -/
def toExtended (c : CompletedPoint) : EdwardsPoint where
  x := c.e.mul c.f
  y := c.g.mul c.h
  z := c.f.mul c.g
  t := c.e.mul c.h

variable {c : CompletedPoint} {A B : Point}

theorem Denotes.toProjective (denotes : c.Denotes A) : c.toProjective.Denotes A := by
  constructor
  · rw [CompletedPoint.toProjective, Fe.mul_val]
    exact mul_ne_zero denotes.f denotes.g
  · simp only [CompletedPoint.toProjective, Fe.mul_val, denotes.e]
    ring
  · simp only [CompletedPoint.toProjective, Fe.mul_val, denotes.h]
    ring

theorem Denotes.toExtended (denotes : c.Denotes A) : c.toExtended.Denotes A := by
  constructor
  · rw [CompletedPoint.toExtended, Fe.mul_val]
    exact mul_ne_zero denotes.f denotes.g
  · simp only [CompletedPoint.toExtended, Fe.mul_val, denotes.e]
    ring
  · simp only [CompletedPoint.toExtended, Fe.mul_val, denotes.h]
    ring
  · simp only [CompletedPoint.toExtended, Fe.mul_val, denotes.e, denotes.h]
    ring

/-- The addition law in completed coordinates. Each quotient may have its own scale. -/
theorem denotes_add {s r : F} (hs : s ≠ 0) (hr : r ≠ 0) (e : c.e.val = s * (A.x * B.y + A.y * B.x))
    (g : c.g.val = s * (1 + cross A B)) (h : c.h.val = r * (A.y * B.y + A.x * B.x))
    (f : c.f.val = r * (1 - cross A B)) : c.Denotes (A + B) := by
  constructor
  · rw [f]
    exact mul_ne_zero hr (one_sub_cross_ne_zero A B)
  · rw [g]
    exact mul_ne_zero hs (one_add_cross_ne_zero A B)
  · rw [e, g]
    linear_combination -s * Point.add_x_mul A B
  · rw [h, f]
    linear_combination -r * Point.add_y_mul A B

end CompletedPoint

namespace ProjectivePoint

def IDENTITY : ProjectivePoint := ⟨Fe.ZERO, Fe.ONE, Fe.ONE⟩

theorem IDENTITY_denotes : IDENTITY.Denotes 0 := by
  constructor <;> simp [IDENTITY]

/-- `dbl-2008-hwcd` up to the completed coordinates, `T` never formed. -/
def double (p : ProjectivePoint) : CompletedPoint :=
  let a := p.x.square
  let b := p.y.square
  let c := p.z.square
  let c := c.add c
  let h := a.add b
  let e := h.sub (p.x.add p.y).square
  let g := a.sub b
  let f := c.add g
  { e, h, f, g }

/-- Doubling needs no `d`: the curve equation stands in for it. -/
theorem Denotes.double {p : ProjectivePoint} {A : Point} (denotes : p.Denotes A) :
    p.double.Denotes (A + A) := by
  have scale : p.z.val ^ 2 ≠ 0 := pow_ne_zero 2 denotes.z
  have curve := A.onCurve
  apply CompletedPoint.denotes_add (neg_ne_zero.mpr scale) scale
  · simp only [ProjectivePoint.double, Fe.sub_val, Fe.add_val, Fe.square_val, denotes.x, denotes.y]
    ring
  · simp only [ProjectivePoint.double, Fe.sub_val, Fe.square_val, denotes.x, denotes.y, cross]
    linear_combination -p.z.val ^ 2 * curve
  · simp only [ProjectivePoint.double, Fe.add_val, Fe.square_val, denotes.x, denotes.y]
    ring
  · simp only [ProjectivePoint.double, Fe.sub_val, Fe.add_val, Fe.square_val, denotes.x, denotes.y, cross]
    linear_combination -p.z.val ^ 2 * curve

end ProjectivePoint

namespace ProjectiveNiels

/-- Negation swaps the `Y±X` terms and negates `2d*T`. -/
def negate (n : ProjectiveNiels) : ProjectiveNiels where
  yPlusX := n.yMinusX
  yMinusX := n.yPlusX
  z := n.z
  t2d := n.t2d.neg

theorem Denotes.negate {n : ProjectiveNiels} {A : Point} (denotes : n.Denotes A) :
    n.negate.Denotes (-A) := by
  constructor
  · exact denotes.z
  · simp only [ProjectiveNiels.negate, denotes.yMinusX, Point.neg_x, Point.neg_y]
    ring
  · simp only [ProjectiveNiels.negate, denotes.yPlusX, Point.neg_x, Point.neg_y]
    ring
  · simp only [ProjectiveNiels.negate, Fe.neg_val, denotes.t2d, Point.neg_x, Point.neg_y]
    ring

end ProjectiveNiels

namespace AffineNiels

def negate (n : AffineNiels) : AffineNiels where
  yPlusX := n.yMinusX
  yMinusX := n.yPlusX
  xy2d := n.xy2d.neg

theorem Denotes.negate {n : AffineNiels} {A : Point} (denotes : n.Denotes A) :
    n.negate.Denotes (-A) := by
  constructor
  · simp only [AffineNiels.negate, denotes.yMinusX, Point.neg_x, Point.neg_y]
    ring
  · simp only [AffineNiels.negate, denotes.yPlusX, Point.neg_x, Point.neg_y]
    ring
  · simp only [AffineNiels.negate, Fe.neg_val, denotes.xy2d, Point.neg_x, Point.neg_y]
    ring

end AffineNiels

namespace EdwardsPoint

/-- The group identity. -/
def IDENTITY : EdwardsPoint := ⟨Fe.ZERO, Fe.ONE, Fe.ONE, Fe.ZERO⟩

/-- The Ed25519 base point. -/
def BASEPOINT : EdwardsPoint where
  x :=
    { limbs := ⟨0x00062d608f25d51a, 0x000412a4b4f6592a, 0x00075b7171a4b31d, 0x0001ff60527118fe,
        0x000216936d3cd6e5⟩
      reduced := by decide }
  y :=
    { limbs := ⟨0x0006666666666658, 0x0004cccccccccccc, 0x0001999999999999, 0x0003333333333333,
        0x0006666666666666⟩
      reduced := by decide }
  z := Fe.ONE
  t :=
    { limbs := ⟨0x00068ab3a5b7dda3, 0x00000eea2a5eadbb, 0x0002af8df483c27e, 0x000332b375274732,
        0x00067875f0fd78b7⟩
      reduced := by decide }

/-- Point addition (`add-2008-hwcd-3`). -/
def add (p q : EdwardsPoint) : EdwardsPoint :=
  let a := (p.y.sub p.x).mul (q.y.sub q.x)
  let b := (p.y.add p.x).mul (q.y.add q.x)
  let c := (p.t.mul D2).mul q.t
  let d := p.z.mul q.z
  let d := d.add d
  let e := b.sub a
  let f := d.sub c
  let g := d.add c
  let h := b.add a
  { x := e.mul f, y := g.mul h, t := e.mul h, z := f.mul g }

/-- Point negation. -/
def negate (p : EdwardsPoint) : EdwardsPoint where
  x := p.x.neg
  y := p.y
  z := p.z
  t := p.t.neg

/-- Point subtraction. -/
def sub (p q : EdwardsPoint) : EdwardsPoint := p.add q.negate

/-- Cache the three subterms that an addition would otherwise recompute. -/
def toProjectiveNiels (p : EdwardsPoint) : ProjectiveNiels where
  yPlusX := p.y.add p.x
  yMinusX := p.y.sub p.x
  z := p.z
  t2d := p.t.mul D2

/-- Add a cached point in projective-Niels form. -/
def addProjectiveNiels (p : EdwardsPoint) (n : ProjectiveNiels) : CompletedPoint :=
  let pp := (p.y.add p.x).mul n.yPlusX
  let mm := (p.y.sub p.x).mul n.yMinusX
  let tt2d := p.t.mul n.t2d
  let zz := p.z.mul n.z
  let zz2 := zz.add zz
  { e := pp.sub mm, h := pp.add mm, g := zz2.add tt2d, f := zz2.sub tt2d }

/-- Add a cached point in affine-Niels form (its `Z` is one). -/
def addAffineNiels (p : EdwardsPoint) (n : AffineNiels) : CompletedPoint :=
  let pp := (p.y.add p.x).mul n.yPlusX
  let mm := (p.y.sub p.x).mul n.yMinusX
  let txy2d := p.t.mul n.xy2d
  let z2 := p.z.add p.z
  { e := pp.sub mm, h := pp.add mm, g := z2.add txy2d, f := z2.sub txy2d }

/-- Point doubling (`dbl-2008-hwcd`), which does not need `d`. -/
def double (p : EdwardsPoint) : EdwardsPoint :=
  let a := p.x.square
  let b := p.y.square
  let c := p.z.square
  let c := c.add c
  let h := a.add b
  let xy := p.x.add p.y
  let e := h.sub xy.square
  let g := a.sub b
  let f := c.add g
  { x := e.mul f, y := g.mul h, t := e.mul h, z := f.mul g }

/-- Multiply by the cofactor 8. -/
def mulByCofactor (p : EdwardsPoint) : EdwardsPoint := p.double.double.double

variable {p q : EdwardsPoint} {A B : Point}

theorem IDENTITY_denotes : IDENTITY.Denotes 0 := by
  constructor <;> simp [IDENTITY]

theorem BASEPOINT_denotes : BASEPOINT.Denotes Curve25519.B := by
  have x : BASEPOINT.x.limbs.value = xResidue := by norm_num [BASEPOINT, Limbs.value, xResidue]
  have y : BASEPOINT.y.limbs.value = yResidue := by norm_num [BASEPOINT, Limbs.value, yResidue]
  have t : BASEPOINT.t.limbs.value % P = xResidue * yResidue % P := by
    norm_num [BASEPOINT, Limbs.value, xResidue, yResidue, P]
  constructor
  · simp [BASEPOINT]
  · rw [Fe.val, x]
    simp [BASEPOINT, Curve25519.B]
  · rw [Fe.val, y]
    simp [BASEPOINT, Curve25519.B]
  · rw [Fe.val, (ZMod.natCast_eq_natCast_iff' _ _ P).mpr t]
    simp [BASEPOINT, Curve25519.B]

theorem Denotes.toProjectiveNiels (denotes : p.Denotes A) : p.toProjectiveNiels.Denotes A := by
  constructor
  · exact denotes.z
  · simp only [EdwardsPoint.toProjectiveNiels, Fe.add_val, denotes.x, denotes.y]
    ring
  · simp only [EdwardsPoint.toProjectiveNiels, Fe.sub_val, denotes.x, denotes.y]
    ring
  · simp only [EdwardsPoint.toProjectiveNiels, Fe.mul_val, D2_val, denotes.t]
    ring

theorem Denotes.addProjectiveNiels {n : ProjectiveNiels} (hp : p.Denotes A) (hn : n.Denotes B) :
    (p.addProjectiveNiels n).Denotes (A + B) := by
  have scale : 2 * p.z.val * n.z.val ≠ 0 := mul_ne_zero (mul_ne_zero two_ne_zero hp.z) hn.z
  apply CompletedPoint.denotes_add scale scale
  all_goals
    simp only [EdwardsPoint.addProjectiveNiels, Fe.sub_val, Fe.add_val, Fe.mul_val, hp.x, hp.y, hp.t,
      hn.yPlusX, hn.yMinusX, hn.t2d, cross]
    ring

theorem Denotes.addAffineNiels {n : AffineNiels} (hp : p.Denotes A) (hn : n.Denotes B) :
    (p.addAffineNiels n).Denotes (A + B) := by
  have scale : 2 * p.z.val ≠ 0 := mul_ne_zero two_ne_zero hp.z
  apply CompletedPoint.denotes_add scale scale
  all_goals
    simp only [EdwardsPoint.addAffineNiels, Fe.sub_val, Fe.add_val, Fe.mul_val, hp.x, hp.y, hp.t,
      hn.yPlusX, hn.yMinusX, hn.xy2d, cross]
    ring

/-- The generic addition before its products are formed. -/
private def completedSum (p q : EdwardsPoint) : CompletedPoint :=
  let a := (p.y.sub p.x).mul (q.y.sub q.x)
  let b := (p.y.add p.x).mul (q.y.add q.x)
  let c := (p.t.mul D2).mul q.t
  let d := (p.z.mul q.z).add (p.z.mul q.z)
  { e := b.sub a, h := b.add a, f := d.sub c, g := d.add c }

theorem Denotes.add (hp : p.Denotes A) (hq : q.Denotes B) : (p.add q).Denotes (A + B) := by
  have scale : 2 * p.z.val * q.z.val ≠ 0 := mul_ne_zero (mul_ne_zero two_ne_zero hp.z) hq.z
  have completed : (completedSum p q).Denotes (A + B) := by
    apply CompletedPoint.denotes_add scale scale
    all_goals
      simp only [completedSum, Fe.sub_val, Fe.add_val, Fe.mul_val, D2_val, hp.x, hp.y, hp.t, hq.x,
        hq.y, hq.t, cross]
      ring
  exact completed.toExtended

theorem Denotes.negate (denotes : p.Denotes A) : p.negate.Denotes (-A) := by
  constructor
  · exact denotes.z
  · simp only [EdwardsPoint.negate, Fe.neg_val, denotes.x, Point.neg_x]
    ring
  · exact denotes.y
  · simp only [EdwardsPoint.negate, Fe.neg_val, denotes.t, Point.neg_x, Point.neg_y]
    ring

theorem Denotes.sub (hp : p.Denotes A) (hq : q.Denotes B) : (p.sub q).Denotes (A - B) := by
  rw [sub_eq_add_neg]
  exact hp.add hq.negate

/-- Without its `t` an extended point is a projective one, and doubles as such. -/
theorem Denotes.double (denotes : p.Denotes A) : p.double.Denotes (A + A) := by
  have projective : (ProjectivePoint.mk p.x p.y p.z).Denotes A := ⟨denotes.z, denotes.x, denotes.y⟩
  exact projective.double.toExtended

theorem Denotes.mulByCofactor (denotes : p.Denotes A) : p.mulByCofactor.Denotes (8 • A) := by
  have eight : 8 • A = A + A + (A + A) + (A + A + (A + A)) := by
    rw [← two_nsmul, ← two_nsmul, ← two_nsmul, ← mul_nsmul', ← mul_nsmul']
  rw [eight]
  exact denotes.double.double.double

end EdwardsPoint

end Blindplane.Crypto
