import Blindplane.Crypto.Field.Limbs

/-! # Field elements

An element is weakly reduced limbs, and every operation is a routine that keeps them so.
What an element stands for is its value in the field; each operation has one lemma about
it, and nothing above looks at limbs again.
-/

namespace Blindplane.Crypto

open Lib Curve25519

/-- A field element held as five limbs that leave room for lazy reduction. -/
@[ext] structure Fe where
  limbs : Limbs
  reduced : limbs.WeaklyReduced

namespace Fe

/-- The residue an element stands for. -/
def val (a : Fe) : F := a.limbs.value

/-- What a routine leaves under wrapping arithmetic, as in a release build. -/
def run (routine : ∀ (m : Type → Type) [Monad m] [Arithmetic m], m Limbs) {residue : F}
    (spec : Limbs.Computes routine residue) : Fe where
  limbs := routine Id
  reduced := by
    obtain ⟨r, reduced, -, runs⟩ := spec
    rw [runs Id]
    exact reduced

theorem run_val {routine : ∀ (m : Type → Type) [Monad m] [Arithmetic m], m Limbs} {residue : F}
    (spec : Limbs.Computes routine residue) : (run routine spec).val = residue := by
  show ((routine Id : Limbs).value : F) = residue
  obtain ⟨r, -, value, runs⟩ := spec
  rw [runs Id]
  exact value

/-- The additive identity. -/
def ZERO : Fe := ⟨⟨0, 0, 0, 0, 0⟩, by decide⟩

/-- The multiplicative identity. -/
def ONE : Fe := ⟨⟨1, 0, 0, 0, 0⟩, by decide⟩

/-- `sqrt(-1) mod p`, used to take square roots and to decompress points. -/
def SQRT_M1 : Fe where
  limbs := ⟨0x00061b274a0ea0b0, 0x0000d5a5fc8f189d, 0x0007ef5e9cbd0c60, 0x00078595a6804c9e,
    0x0002b8324804fc1d⟩
  reduced := by decide

/-- Sum of two field elements. -/
def add (a b : Fe) : Fe :=
  run (fun _ => a.limbs.addLimbs b.limbs) (Limbs.addLimbs_computes a.reduced b.reduced)

/-- Difference of two field elements. -/
def sub (a b : Fe) : Fe :=
  run (fun _ => a.limbs.subLimbs b.limbs) (Limbs.subLimbs_computes a.reduced b.reduced)

/-- Additive inverse. -/
def neg (a : Fe) : Fe := ZERO.sub a

/-- Product of two field elements. -/
def mul (a b : Fe) : Fe :=
  run (fun _ => a.limbs.mulLimbs b.limbs) (Limbs.mulLimbs_computes a.reduced b.reduced)

/-- Square of a field element. -/
def square (a : Fe) : Fe :=
  run (fun _ => a.limbs.squareLimbs) (Limbs.squareLimbs_computes a.reduced)

/-- `self` squared `n` times. -/
def squareN (a : Fe) : Nat → Fe
  | 0 => a
  | n + 1 => (a.squareN n).square

/-- Multiplication by the Montgomery-ladder constant `a24 = 121666`. -/
def mul121666 (a : Fe) : Fe :=
  run (fun _ => a.limbs.mul121666Limbs) (Limbs.mul121666Limbs_computes a.reduced)

@[simp] theorem ZERO_val : ZERO.val = 0 := Nat.cast_zero

@[simp] theorem ONE_val : ONE.val = 1 := Nat.cast_one

@[simp] theorem add_val (a b : Fe) : (a.add b).val = a.val + b.val := run_val _

@[simp] theorem sub_val (a b : Fe) : (a.sub b).val = a.val - b.val := run_val _

@[simp] theorem neg_val (a : Fe) : a.neg.val = -a.val := by rw [neg, sub_val, ZERO_val, zero_sub]

@[simp] theorem mul_val (a b : Fe) : (a.mul b).val = a.val * b.val := run_val _

@[simp] theorem square_val (a : Fe) : a.square.val = a.val ^ 2 := (run_val _).trans (pow_two _).symm

@[simp] theorem squareN_val (a : Fe) (n : Nat) : (a.squareN n).val = a.val ^ 2 ^ n := by
  induction n with
  | zero => rw [squareN, pow_zero, pow_one]
  | succ n ih => rw [squareN, square_val, ih, ← pow_mul, pow_succ]

@[simp] theorem mul121666_val (a : Fe) : a.mul121666.val = a.val * 121666 := run_val _

theorem SQRT_M1_sq : SQRT_M1.val ^ 2 = -1 := by
  have multiple : ((SQRT_M1.limbs.value ^ 2 + 1 : Nat) : F) = 0 :=
    cast_eq_zero (by norm_num [SQRT_M1, Limbs.value, P])
  rw [Nat.cast_add, Nat.cast_pow, Nat.cast_one] at multiple
  exact eq_neg_of_add_eq_zero_left multiple

section Powers

/-- What the two addition chains share: 250 ones in the exponent, and eleven. -/
def pow250 (z1 : Fe) : Fe × Fe :=
  let z2 := z1.square
  let z8 := z2.squareN 2
  let z9 := z1.mul z8
  let z11 := z2.mul z9
  let z22 := z11.square
  let z_5_0 := z9.mul z22
  let z_10_5 := z_5_0.squareN 5
  let z_10_0 := z_10_5.mul z_5_0
  let z_20_10 := z_10_0.squareN 10
  let z_20_0 := z_20_10.mul z_10_0
  let z_40_20 := z_20_0.squareN 20
  let z_40_0 := z_40_20.mul z_20_0
  let z_50_10 := z_40_0.squareN 10
  let z_50_0 := z_50_10.mul z_10_0
  let z_100_50 := z_50_0.squareN 50
  let z_100_0 := z_100_50.mul z_50_0
  let z_200_100 := z_100_0.squareN 100
  let z_200_0 := z_200_100.mul z_100_0
  let z_250_50 := z_200_0.squareN 50
  let z_250_0 := z_250_50.mul z_50_0
  (z_250_0, z11)

/-- Multiplicative inverse, computed as `self^(p-2)`. -/
def invert (z1 : Fe) : Fe :=
  let (z_250_0, z11) := z1.pow250
  let z_255_5 := z_250_0.squareN 5
  z_255_5.mul z11

/-- `self^((p-5)/8)`, the exponent used when taking square roots. -/
def powP58 (z1 : Fe) : Fe :=
  let (z_250_0, _) := z1.pow250
  let z_252_2 := z_250_0.squareN 2
  z_252_2.mul z1

/-- One link of the chain: ones, shifted up and filled with ones again. -/
private theorem ones_mul {a b z : Fe} {m n : Nat} (ha : a.val = z.val ^ (2 ^ m - 1))
    (hb : b.val = z.val ^ (2 ^ n - 1)) : ((a.squareN n).mul b).val = z.val ^ (2 ^ (m + n) - 1) := by
  have ones : (2 ^ m - 1) * 2 ^ n + (2 ^ n - 1) = 2 ^ (m + n) - 1 := by
    have positive := Nat.two_pow_pos n
    rw [Nat.sub_mul, Nat.one_mul, ← Nat.pow_add]
    have above := Nat.pow_le_pow_right (show 0 < 2 by decide) (Nat.le_add_left n m)
    omega
  rw [mul_val, squareN_val, ha, hb, ← pow_mul, ← pow_add, ones]

theorem pow250_val (z : Fe) :
    z.pow250.1.val = z.val ^ (2 ^ 250 - 1) ∧ z.pow250.2.val = z.val ^ 11 := by
  have z2 : z.square.val = z.val ^ 2 := square_val z
  have z9 : (z.mul (z.square.squareN 2)).val = z.val ^ 9 := by
    rw [mul_val, squareN_val, z2]
    ring
  have z11 : (z.square.mul (z.mul (z.square.squareN 2))).val = z.val ^ 11 := by
    rw [mul_val, z2, z9]
    ring
  refine ⟨?_, z11⟩
  have ones5 : ((z.mul (z.square.squareN 2)).mul (z.square.mul (z.mul (z.square.squareN 2))).square).val =
      z.val ^ (2 ^ 5 - 1) := by
    rw [mul_val, square_val, z9, z11]
    ring
  have ones10 := ones_mul ones5 ones5
  have ones20 := ones_mul ones10 ones10
  have ones40 := ones_mul ones20 ones20
  have ones50 := ones_mul ones40 ones10
  have ones100 := ones_mul ones50 ones50
  have ones200 := ones_mul ones100 ones100
  exact ones_mul ones200 ones50

theorem invert_pow (z : Fe) : z.invert.val = z.val ^ (P - 2) := by
  obtain ⟨ones, eleven⟩ := pow250_val z
  have exponent : (2 ^ 250 - 1) * 2 ^ 5 + 11 = P - 2 := by norm_num [P]
  rw [← exponent, pow_add, pow_mul]
  simp only [invert, mul_val, squareN_val, ones, eleven]

/-- Fermat: the power `p - 2` inverts, and takes zero to zero. -/
theorem invert_val (z : Fe) : z.invert.val = z.val⁻¹ := by
  rw [invert_pow]
  by_cases zero : z.val = 0
  · rw [zero, zero_pow (by norm_num [P]), inv_zero]
  · have split : P - 1 = P - 2 + 1 := by norm_num [P]
    have fermat := ZMod.pow_card_sub_one_eq_one zero
    rw [split, pow_succ] at fermat
    exact eq_inv_of_mul_eq_one_left fermat

theorem powP58_val (z : Fe) : z.powP58.val = z.val ^ ((P - 5) / 8) := by
  have exponent : (2 ^ 250 - 1) * 2 ^ 2 + 1 = (P - 5) / 8 := by norm_num [P]
  rw [← exponent, pow_add, pow_mul, pow_one]
  simp only [powP58, mul_val, squareN_val, (pow250_val z).1]

end Powers

end Fe

end Blindplane.Crypto
