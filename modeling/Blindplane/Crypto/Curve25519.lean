import Blindplane.Lib.Primality
import Blindplane.Lib.TwistedEdwards
import Mathlib.NumberTheory.LegendreSymbol.Basic
import Mathlib.GroupTheory.OrderOfElement
import Mathlib.Tactic.NormNum.Prime

/-! # The curve under X25519 and Ed25519

The field of `2^255 - 19` elements, the twisted Edwards curve over it, and its base
point. That the field order and the group order are prime, that the curve constant is
no square, and that the base point has the group order are all arithmetic, done here.
-/

namespace Blindplane.Crypto.Curve25519

open Lib

/-- The order of the field. -/
def P : Nat := 2 ^ 255 - 19

/-- The order of the base point. -/
def L : Nat := 2 ^ 252 + 27742317777372353535851937790883648493

theorem P_lt_two_pow : P < 2 ^ 255 := by norm_num [P]

theorem two_pow_eq_P_add : 2 ^ 255 = P + 19 := by norm_num [P]

theorem L_lt_two_pow : L < 2 ^ 253 := by norm_num [L]

theorem two_pow_lt_L : 2 ^ 252 < L := by norm_num [L]

theorem L_pos : 0 < L := Nat.lt_trans (Nat.two_pow_pos 252) two_pow_lt_L

section Primes

/-- The primes the certificates start from. -/
private def smallPrimes : List Nat :=
  [2, 3, 5, 7, 11, 13, 17, 19, 23, 31, 41, 43, 47, 59, 67, 73, 79, 83, 97, 103, 107, 127, 131,
    223, 269, 307, 353, 419, 479, 487, 991, 1361, 1723, 2437, 2551, 2851, 2939, 3727, 3797,
    4153]

private theorem smallPrimes_prime : ∀ q ∈ smallPrimes, q.Prime := by
  simp only [smallPrimes, List.forall_mem_cons]
  norm_num

private def fieldTests : List Primality.Test :=
  [⟨9463, 3, [2, 3, 19, 83]⟩, ⟨32573, 2, [2, 2, 17, 479]⟩, ⟨37853, 2, [2, 2, 9463]⟩,
    ⟨57467, 2, [2, 59, 487]⟩, ⟨65147, 2, [2, 32573]⟩, ⟨75707, 2, [2, 37853]⟩,
    ⟨132049, 26, [2, 2, 2, 2, 3, 3, 7, 131]⟩, ⟨430751, 17, [2, 5, 5, 5, 1723]⟩,
    ⟨569003, 2, [2, 7, 97, 419]⟩, ⟨1923133, 2, [2, 2, 3, 43, 3727]⟩,
    ⟨8574133, 2, [2, 2, 3, 7, 103, 991]⟩, ⟨2773320623, 5, [2, 2437, 569003]⟩,
    ⟨72106336199, 7, [2, 13, 2773320623]⟩,
    ⟨1919519569386763, 2, [2, 3, 7, 19, 47, 47, 127, 8574133]⟩,
    ⟨31757755568855353, 10, [2, 2, 2, 3, 31, 107, 223, 4153, 430751]⟩,
    ⟨75445702479781427272750846543864801, 7, [2, 2, 2, 2, 2, 3, 3, 5, 5, 75707, 72106336199,
      1919519569386763]⟩,
    ⟨74058212732561358302231226437062788676166966415465897661863160754340907, 2, [2, 3, 353, 57467,
      132049, 1923133, 31757755568855353, 75445702479781427272750846543864801]⟩,
    ⟨57896044618658097711785492504343953926634992332820282019728792003956564819949, 2, [2, 2, 3,
      65147, 74058212732561358302231226437062788676166966415465897661863160754340907]⟩]

private def groupTests : List Primality.Test :=
  [⟨5879, 11, [2, 2939]⟩, ⟨17231, 13, [2, 5, 1723]⟩, ⟨22111, 6, [2, 3, 5, 11, 67]⟩,
    ⟨30703, 3, [2, 3, 7, 17, 43]⟩, ⟨34123, 2, [2, 3, 11, 11, 47]⟩,
    ⟨41081, 3, [2, 2, 2, 5, 13, 79]⟩, ⟨82163, 2, [2, 41081]⟩, ⟨132667, 5, [2, 3, 22111]⟩,
    ⟨137849, 3, [2, 2, 2, 17231]⟩, ⟨409477, 2, [2, 2, 3, 34123]⟩, ⟨531581, 2, [2, 2, 5, 7, 3797]⟩,
    ⟨1224481, 13, [2, 2, 2, 2, 2, 3, 5, 2551]⟩, ⟨14741173, 2, [2, 2, 3, 3, 409477]⟩,
    ⟨58964693, 2, [2, 2, 14741173]⟩, ⟨292386187, 2, [2, 3, 3, 3, 3, 307, 5879]⟩,
    ⟨213441916511, 13, [2, 5, 73, 292386187]⟩,
    ⟨1257559732178653, 2, [2, 2, 3, 7, 23, 531581, 1224481]⟩,
    ⟨4434155615661930479, 17, [2, 41, 43, 1257559732178653]⟩,
    ⟨3044861653679985063343, 5, [2, 3, 11, 30703, 82163, 132667, 137849]⟩,
    ⟨172054593956031949258510691, 2, [2, 5, 1361, 2851, 4434155615661930479]⟩,
    ⟨198211423230930754013084525763697, 5, [2, 2, 2, 2, 3, 23, 58964693, 3044861653679985063343]⟩,
    ⟨19757330305831588566944191468367130476339, 2, [2, 269, 213441916511,
      172054593956031949258510691]⟩,
    ⟨276602624281642239937218680557139826668747, 2, [2, 7,
      19757330305831588566944191468367130476339]⟩,
    ⟨7237005577332262213973186563042994240857116359379907606001950938285454250989, 2, [2, 2, 3, 11,
      198211423230930754013084525763697, 276602624281642239937218680557139826668747]⟩]

private theorem fieldTests_prime : ∀ test ∈ fieldTests, test.number.Prime :=
  Primality.prime_of_passAll smallPrimes_prime (by decide +kernel)

private theorem groupTests_prime : ∀ test ∈ groupTests, test.number.Prime :=
  Primality.prime_of_passAll smallPrimes_prime (by decide +kernel)

theorem P_prime : P.Prime :=
  fieldTests_prime (fieldTests.getLast (by decide)) (List.getLast_mem _)

theorem L_prime : L.Prime :=
  groupTests_prime (groupTests.getLast (by decide)) (List.getLast_mem _)

end Primes

instance : Fact P.Prime := ⟨P_prime⟩

instance : Fact L.Prime := ⟨L_prime⟩

/-- The field the coordinates are in. -/
abbrev F := ZMod P

/-- The curve constant, as a residue. -/
def dResidue : Nat :=
  37095705934669439343138083508754565189542113879843219016388785533085940283555

/-- The curve constant `-121665/121666`. -/
def d : F := dResidue

/-- A residue is zero when its number is a multiple of the modulus. -/
theorem cast_eq_zero {n : Nat} (multiple : n % P = 0) : (n : F) = 0 :=
  (ZMod.natCast_eq_zero_iff n P).mpr (Nat.dvd_of_mod_eq_zero multiple)

theorem d_eq : 121666 * d = -121665 := by
  have multiple : ((121666 * dResidue + 121665 : Nat) : F) = 0 := cast_eq_zero (by norm_num [dResidue, P])
  push_cast at multiple
  exact eq_neg_of_add_eq_zero_left multiple

theorem two_ne_zero : (2 : F) ≠ 0 := by
  intro zero
  have divides := (ZMod.natCast_eq_zero_iff 2 P).mp (by exact_mod_cast zero)
  exact absurd divides (by norm_num [P])

theorem neg_one_isSquare : IsSquare (-1 : F) := by
  rw [ZMod.exists_sq_eq_neg_one_iff]
  norm_num [P]

/-- By Euler's criterion: half the group order takes the constant to `-1`. -/
theorem d_nonsquare : ¬ IsSquare d := by
  have power : (dResidue ^ (P / 2) + 1) % P = 0 := by
    rw [Nat.add_mod, ← @Primality.powMod_eq P 255 dResidue (P / 2) (by norm_num [P])]
    decide +kernel
  have minus : d ^ (P / 2) = -1 := by
    have cast := cast_eq_zero power
    push_cast at cast
    exact eq_neg_of_add_eq_zero_left cast
  have apart : (-1 : F) ≠ 1 := fun same =>
    two_ne_zero (by linear_combination -1 * same)
  have nonzero : d ≠ 0 := by
    intro zero
    rw [zero, zero_pow (by norm_num [P])] at minus
    exact apart (by linear_combination (-2 : F) * minus)
  rw [ZMod.euler_criterion P nonzero, minus]
  exact apart

instance : TwistedEdwards.Complete d where
  two_ne_zero := two_ne_zero
  neg_one := neg_one_isSquare
  nonsquare := d_nonsquare

/-- The points of the curve; they form an abelian group. -/
abbrev Point := TwistedEdwards.Point d

section BasePoint

/-- The coordinates of the base point, as residues. -/
def xResidue : Nat :=
  15112221349535400772501151409588531511454012693041857206046113283949847762202

def yResidue : Nat :=
  46316835694926478169428394003475163141307993866256225615783033603165251855960

/-- The base point, the one with `y = 4/5` and an even `x`. -/
def B : Point where
  x := xResidue
  y := yResidue
  onCurve := by
    have multiple : ((yResidue ^ 2 + (P - 1) * xResidue ^ 2 +
        (P - 1) * (1 + dResidue * xResidue ^ 2 * yResidue ^ 2) : Nat) : F) = 0 :=
      cast_eq_zero (by norm_num [xResidue, yResidue, dResidue, P])
    push_cast [Nat.cast_sub P_prime.one_le, CharP.cast_eq_zero] at multiple
    simp only [d]
    linear_combination multiple

/-- Projective coordinates, as residues: what the kernel can multiply a point with. -/
structure Residues where
  x : Nat
  y : Nat
  z : Nat

namespace Residues

/-- The point of these coordinates. -/
structure Denotes (R : Residues) (A : Point) : Prop where
  z : (R.z : F) ≠ 0
  x : (R.x : F) = A.x * R.z
  y : (R.y : F) = A.y * R.z

/-- The complete projective addition. -/
def add (R S : Residues) : Residues :=
  let a := R.z * S.z % P
  let b := a * a % P
  let c := R.x * S.x % P
  let d := R.y * S.y % P
  let e := c * d % P
  let f := (b + (P - dResidue) * e) % P
  let g := (b + dResidue * e) % P
  let h := (R.x * S.y + R.y * S.x) % P
  { x := a * f % P * h % P, y := a * g % P * (d + c) % P, z := f * g % P }

theorem Denotes.add {R S : Residues} {A B : Point} (hA : R.Denotes A) (hB : S.Denotes B) :
    (R.add S).Denotes (A + B) := by
  have minus : ((P - dResidue : Nat) : F) = -d := by
    rw [Nat.cast_sub (by norm_num [dResidue, P]), CharP.cast_eq_zero, zero_sub, d]
  have scale : (R.z * S.z : F) ^ 2 ≠ 0 := pow_ne_zero 2 (mul_ne_zero hA.z hB.z)
  have sumX := TwistedEdwards.Point.add_x_mul A B
  have sumY := TwistedEdwards.Point.add_y_mul A B
  -- the two factors of the new denominator, over the old ones
  have f : (R.z * S.z : F) ^ 2 + -d * (R.x * S.x * (R.y * S.y)) =
      (R.z * S.z : F) ^ 2 * (1 - TwistedEdwards.cross A B) := by
    rw [hA.x, hA.y, hB.x, hB.y, TwistedEdwards.cross]
    ring
  have g : (R.z * S.z : F) ^ 2 + d * (R.x * S.x * (R.y * S.y)) =
      (R.z * S.z : F) ^ 2 * (1 + TwistedEdwards.cross A B) := by
    rw [hA.x, hA.y, hB.x, hB.y, TwistedEdwards.cross]
    ring
  have z : (((R.add S).z : Nat) : F) =
      (R.z * S.z : F) ^ 2 * (1 - TwistedEdwards.cross A B) *
        ((R.z * S.z : F) ^ 2 * (1 + TwistedEdwards.cross A B)) := by
    simp only [Residues.add, Nat.cast_add, Nat.cast_mul, ZMod.natCast_mod, minus]
    rw [← f, ← g, d]
    ring
  constructor
  · rw [z]
    exact mul_ne_zero (mul_ne_zero scale (TwistedEdwards.one_sub_cross_ne_zero A B))
      (mul_ne_zero scale (TwistedEdwards.one_add_cross_ne_zero A B))
  · rw [z]
    simp only [Residues.add, Nat.cast_add, Nat.cast_mul, ZMod.natCast_mod, minus]
    rw [← pow_two, f, hA.x, hA.y, hB.x, hB.y]
    linear_combination
      -(R.z * S.z : F) ^ 4 * (1 - TwistedEdwards.cross A B) * sumX
  · rw [z]
    simp only [Residues.add, Nat.cast_add, Nat.cast_mul, ZMod.natCast_mod]
    rw [← pow_two, ← d, g, hA.x, hA.y, hB.x, hB.y]
    linear_combination
      -(R.z * S.z : F) ^ 4 * (1 + TwistedEdwards.cross A B) * sumY

/-- The multiple by a number of at most `bits` bits, its lowest bit last. -/
def multiple (R : Residues) : (bits n : Nat) → Residues
  | 0, _ => { x := 0, y := 1, z := 1 }
  | bits + 1, n =>
      let half := R.multiple bits (n / 2)
      let double := half.add half
      if n % 2 = 0 then double else double.add R

theorem Denotes.multiple {R : Residues} {A : Point} (hA : R.Denotes A) {bits n : Nat}
    (fits : n < 2 ^ bits) : (R.multiple bits n).Denotes (n • A) := by
  induction bits generalizing n with
  | zero =>
      obtain rfl : n = 0 := by simpa using fits
      rw [zero_nsmul]
      exact ⟨by simp [Residues.multiple], by simp [Residues.multiple], by simp [Residues.multiple]⟩
  | succ bits ih =>
      have half := ih (show n / 2 < 2 ^ bits by rw [pow_succ] at fits; omega)
      have double := half.add half
      rw [← two_nsmul, ← mul_nsmul'] at double
      simp only [Residues.multiple]
      split
      · next even =>
        rwa [Nat.mul_div_cancel' (Nat.dvd_of_mod_eq_zero even)] at double
      · next odd =>
        have split : n = 2 * (n / 2) + 1 := by omega
        have last := double.add hA
        rwa [← succ_nsmul, ← split] at last

end Residues

/-- Multiplying the base point out, the kernel comes to the neutral point. -/
theorem L_nsmul_B : L • B = 0 := by
  have base : (Residues.mk xResidue yResidue 1).Denotes B :=
    ⟨by simp, by simp [B], by simp [B]⟩
  have product := base.multiple L_lt_two_pow
  set R := (Residues.mk xResidue yResidue 1).multiple 253 L with computed
  have x : (R.x : F) = 0 := cast_eq_zero (by rw [computed]; decide +kernel)
  have y : (R.y : F) = R.z :=
    (ZMod.natCast_eq_natCast_iff' _ _ _).mpr (by rw [computed]; decide +kernel)
  refine TwistedEdwards.Point.ext ?_ ?_
  · exact (mul_eq_zero.mp (product.x.symm.trans x)).resolve_right product.z
  · exact mul_right_cancel₀ product.z (by rw [← product.y, y]; exact (one_mul _).symm)

theorem B_ne_zero : B ≠ 0 := by
  intro same
  have x : (xResidue : F) = 0 := congrArg TwistedEdwards.Point.x same
  rw [ZMod.natCast_eq_zero_iff] at x
  exact absurd (Nat.mod_eq_zero_of_dvd x) (by norm_num [xResidue, P])

theorem addOrderOf_B : addOrderOf B = L := addOrderOf_eq_prime L_nsmul_B B_ne_zero

/-- Multiples of the base point repeat with its order, and not before. -/
theorem nsmul_B_eq_iff {m n : Nat} : m • B = n • B ↔ m % L = n % L := by
  rw [nsmul_eq_nsmul_iff_modEq, addOrderOf_B]
  rfl

theorem mod_nsmul_B (n : Nat) : (n % L) • B = n • B := nsmul_B_eq_iff.mpr (Nat.mod_mod n L)

end BasePoint

end Blindplane.Crypto.Curve25519
