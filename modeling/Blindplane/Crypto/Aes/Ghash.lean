import Blindplane.Lib.CarryLess
import Mathlib.Tactic.ComputeDegree

/-! # GHASH

The authenticator of GCM multiplies in the field of `2^128` elements, whose bits SP 800-38D
numbers from the left. Here elements are held with the bits of every byte reversed, which
makes them words without carries: products are added up unreduced, and one reduction
serves a whole group of blocks. A group absorbed at once is its blocks absorbed one by one.
-/

namespace Blindplane.Crypto

open Lib Simd

namespace Sp80038D

/-- A block; the most significant bit is the first. -/
abbrev Block := BitVec 128

/-- The block of 16 bytes. -/
def block (bytes : Bytes) : Block := BitVec.ofNat 128 (Bytes.ofBe bytes)

/-- The bytes of a block. -/
def bytes (X : Block) : Bytes := Bytes.be 16 X.toNat

/-- The block `11100001 || 0^120`. -/
def R : Block := 0xe1 <<< 120

/-- The product `X • Y`. -/
def mul (X Y : Block) : Block :=
  ((List.range 128).foldl (fun (Z, V) i =>
    (if X.getMsbD i then Z ^^^ V else Z, if V.getLsbD 0 then V >>> 1 ^^^ R else V >>> 1)) (0, Y)).1

/-- `GHASH_H`, from an intermediate block on. -/
def ghash (H Y : Block) (blocks : List Block) : Block := blocks.foldl (fun Y X => mul (Y ^^^ X) H) Y

end Sp80038D

namespace Aes

/-- The unreduced 256-bit carry-less product of two field elements. -/
structure Unreduced where
  low : Register
  high : Register

def Unreduced.xor (a b : Unreduced) : Unreduced where
  low := veorq a.low b.low
  high := veorq a.high b.high

/-- Karatsuba product without reduction: three 64x64 multiplies. -/
def gfMulWide (a b : Register) : Unreduced :=
  let aLo := lane 64 a 0
  let aHi := lane 64 a 1
  let bLo := lane 64 b 0
  let bHi := lane 64 b 1
  let low := vmull_p64 aLo bLo
  let high := vmull_high_p64 a b
  let middle := veorq (veorq (vmull_p64 (aLo ^^^ aHi) (bLo ^^^ bHi)) low) high
  { low := veorq low (vextq_u8 8 0 middle), high := veorq high (vextq_u8 8 middle 0) }

/-- Reduce a 256-bit product modulo `x^128 + x^7 + x^2 + x + 1`. -/
def gfReduce (product : Unreduced) : Register :=
  -- fold `x^128` back in: it is `x^7 + x^2 + x + 1`
  let foldLo := vmull_p64 (lane 64 product.high 0) 0x87
  let foldHi := vmull_p64 (lane 64 product.high 1) 0x87
  let result := veorq product.low foldLo
  let result := veorq result (vextq_u8 8 0 foldHi)
  -- the second fold handles the few bits that spilled past 128 again
  let spill := lane 64 foldHi 1
  let second := vmull_p64 spill 0x87
  veorq result second

/-- Carry-less multiplication in the field, reduced. -/
def gfMul (a b : Register) : Register := gfReduce (gfMulWide a b)

/-- Convert to and from the bit-reversed polynomial representation. -/
def reflect (value : Register) : Register := vrbitq_u8 value

/-- The GHASH accumulator, with the powers of `H` from the eighth down. -/
@[ext] structure Ghash where
  powers : Vector Register 8
  acc : Register

namespace Ghash

def new (hBlock : Register) : Ghash :=
  let h := reflect hBlock
  let h2 := gfMul h h
  let h3 := gfMul h2 h
  let h4 := gfMul h2 h2
  let h5 := gfMul h3 h2
  let h6 := gfMul h3 h3
  let h7 := gfMul h4 h3
  let h8 := gfMul h4 h4
  { powers := Vector.ofFn fun i => [h8, h7, h6, h5, h4, h3, h2, h].getD i.val 0, acc := 0 }

def power (ghash : Ghash) (i : Nat) : Register := ghash.powers.toList.getD i 0

def absorbBlock (ghash : Ghash) (block : Bytes) : Ghash :=
  let value := reflect (vld1q block)
  { ghash with acc := gfMul (veorq ghash.acc value) (ghash.power 7) }

/-- Absorb a group of blocks in registers, the first of them with the power at `first`:
    unreduced products summed, then one reduction. -/
def absorbVectors (first : Nat) (ghash : Ghash) : List Register → Ghash
  | [] => ghash
  | c :: rest =>
      let p := gfMulWide (veorq ghash.acc (reflect c)) (ghash.power first)
      let sum := rest.zipIdx.foldl
        (fun sum (c, i) => sum.xor (gfMulWide (reflect c) (ghash.power (first + 1 + i)))) p
      { ghash with acc := gfReduce sum }

def absorbEightVectors (ghash : Ghash) (group : List Register) : Ghash := ghash.absorbVectors 0 group

def absorbFourVectors (ghash : Ghash) (group : List Register) : Ghash := ghash.absorbVectors 4 group

/-- Load the blocks of a group. -/
def load (piece : Bytes) : List Register := (chunks 16 piece).map vld1q

/-- A last block, with zeros behind it. -/
def zeroPadded (data : Bytes) : Bytes := copyAt (List.replicate 16 0) 0 data

def absorb (ghash : Ghash) (data : Bytes) : Ghash :=
  let (ghash, data) := stride 128 (fun ghash piece => ghash.absorbEightVectors (load piece)) ghash data
  let (ghash, data) := stride 64 (fun ghash piece => ghash.absorbFourVectors (load piece)) ghash data
  let (ghash, data) := stride 16 absorbBlock ghash data
  if data = [] then ghash else ghash.absorbBlock (zeroPadded data)

def finish (ghash : Ghash) : Bytes := vst1q (reflect ghash.acc)

end Ghash

section Field

open Polynomial

/-- `x^7 + x^2 + x + 1`. -/
noncomputable def fold : (ZMod 2)[X] := X ^ 7 + X ^ 2 + X + 1

/-- `x^128 + x^7 + x^2 + x + 1`. -/
noncomputable def modulus : (ZMod 2)[X] := X ^ 128 + fold

private theorem modulus_eq : modulus = X ^ 128 + fold := by
  unfold modulus
  with_reducible rfl

theorem degree_modulus : modulus.degree = (128 : Nat) := by
  have low : fold.degree ≤ (7 : Nat) := by
    rw [fold]
    compute_degree!
  have small : ((7 : Nat) : WithBot Nat) < (128 : Nat) := WithBot.coe_lt_coe.mpr (by decide)
  exact degree_eq (low.trans_lt small) modulus_eq

/-- The class of `x`. -/
noncomputable def x : AdjoinRoot modulus := AdjoinRoot.root modulus

/-- The class of a register held reflected. -/
noncomputable def classOf {w : Nat} (r : BitVec w) : AdjoinRoot modulus := residue modulus r

theorem classOf_inj {a b : Register} : classOf a = classOf b ↔ a = b := (residue_injective degree_modulus).eq_iff

theorem classOf_xor {w : Nat} (a b : BitVec w) : classOf (a ^^^ b) = classOf a + classOf b := residue_xor a b

theorem classOf_veorq (a b : Register) : classOf (veorq a b) = classOf a + classOf b := residue_xor a b

theorem classOf_vmull_p64 (a b : BitVec 64) : classOf (vmull_p64 a b) = classOf a * classOf b := residue_vmull_p64 a b

theorem classOf_halves (r : Register) : classOf r = classOf (lane 64 r 0) + x ^ 64 * classOf (lane 64 r 1) :=
  residue_halves r

theorem two_eq_zero : (2 : AdjoinRoot modulus) = 0 := residue_two

theorem x_pow : x ^ 128 = x ^ 7 + x ^ 2 + x + 1 := by
  rw [x, root_pow_eq modulus_eq, fold]
  simp only [map_add, map_pow, map_one, AdjoinRoot.mk_X]

/-- The constant that `x^128` folds to, at any width that holds it. -/
private theorem classOf_bits {w : Nat} (room : 8 ≤ w) :
    classOf ((1#1).setWidth w <<< 7 ^^^ (1#1).setWidth w <<< 2 ^^^ (1#1).setWidth w <<< 1 ^^^ (1#1).setWidth w <<< 0) =
      x ^ 128 := by
  have one : poly 1#1 = 1 := by
    rw [poly, Finset.sum_range_one, pow_zero, mul_one]
    rfl
  have bit : ∀ i < 8, classOf ((1#1).setWidth w <<< i) = x ^ i := by
    intro i inside
    rw [classOf, residue, poly_shift 1#1 (by omega), one, mul_one, map_pow, AdjoinRoot.mk_X, x]
  rw [x_pow, classOf_xor, classOf_xor, classOf_xor, bit 7 (by decide), bit 2 (by decide), bit 1 (by decide),
    bit 0 (by decide), pow_one, pow_zero]

theorem classOf_fold : classOf (0x87 : BitVec 64) = x ^ 128 := by
  rw [← classOf_bits (by decide : 8 ≤ 64)]
  apply congrArg
  decide

/-- The class of an unreduced product. -/
noncomputable def Unreduced.value (product : Unreduced) : AdjoinRoot modulus :=
  classOf product.low + x ^ 128 * classOf product.high

theorem Unreduced.value_xor (a b : Unreduced) : (a.xor b).value = a.value + b.value := by
  rw [Unreduced.value, Unreduced.value, Unreduced.value, Unreduced.xor, classOf_veorq, classOf_veorq]
  ring

/-- The lower half of a register moved up. -/
private theorem classOf_up (r : Register) : classOf (vextq_u8 8 0 r) = x ^ 64 * classOf (lane 64 r 0) := by
  have clear : lane 64 (0 : Register) 1 = 0 := by decide
  have zero : classOf (0 : BitVec 64) = 0 := residue_zero
  rw [classOf_halves, lane_vextq_low, lane_vextq_high, clear, zero, zero_add]

/-- The upper half of a register moved down. -/
private theorem classOf_down (r : Register) : classOf (vextq_u8 8 r 0) = classOf (lane 64 r 1) := by
  have clear : lane 64 (0 : Register) 0 = 0 := by decide
  have zero : classOf (0 : BitVec 64) = 0 := residue_zero
  rw [classOf_halves, lane_vextq_low, lane_vextq_high, clear, zero, mul_zero, add_zero]

/-- Three multiplies make up the product. -/
theorem value_gfMulWide (a b : Register) : (gfMulWide a b).value = classOf a * classOf b := by
  obtain ⟨middle, emiddle⟩ : ∃ middle, middle = veorq (veorq (vmull_p64 (lane 64 a 0 ^^^ lane 64 a 1)
    (lane 64 b 0 ^^^ lane 64 b 1)) (vmull_p64 (lane 64 a 0) (lane 64 b 0))) (vmull_high_p64 a b) := ⟨_, rfl⟩
  have halves := classOf_halves middle
  have product : classOf middle = (classOf (lane 64 a 0) + classOf (lane 64 a 1)) *
      (classOf (lane 64 b 0) + classOf (lane 64 b 1)) + classOf (lane 64 a 0) * classOf (lane 64 b 0) +
        classOf (lane 64 a 1) * classOf (lane 64 b 1) := by
    rw [emiddle, classOf_veorq, classOf_veorq, classOf_vmull_p64, classOf_xor, classOf_xor, classOf_vmull_p64,
      vmull_high_p64, classOf_vmull_p64]
  have two := two_eq_zero
  rw [gfMulWide, Unreduced.value, ← emiddle, classOf_veorq, classOf_veorq, classOf_up, classOf_down, vmull_high_p64,
    classOf_vmull_p64, classOf_vmull_p64, classOf_halves a, classOf_halves b]
  rw [product] at halves
  linear_combination (-x ^ 64) * halves + x ^ 64 * (classOf (lane 64 a 0) * classOf (lane 64 b 0) +
    classOf (lane 64 a 1) * classOf (lane 64 b 1)) * two

/-- What is folded back keeps the class. -/
theorem classOf_gfReduce (product : Unreduced) : classOf (gfReduce product) = product.value := by
  obtain ⟨foldHi, efold⟩ : ∃ foldHi, foldHi = vmull_p64 (lane 64 product.high 1) 0x87 := ⟨_, rfl⟩
  have halves := classOf_halves foldHi
  have high : classOf foldHi = classOf (lane 64 product.high 1) * x ^ 128 := by
    rw [efold, classOf_vmull_p64, classOf_fold]
  rw [gfReduce, Unreduced.value, ← efold, classOf_veorq, classOf_veorq, classOf_veorq, classOf_up, classOf_vmull_p64,
    classOf_vmull_p64, classOf_fold, classOf_halves product.high]
  rw [high] at halves
  linear_combination (-x ^ 64) * halves

theorem classOf_gfMul (a b : Register) : classOf (gfMul a b) = classOf a * classOf b := by
  rw [gfMul, classOf_gfReduce, value_gfMulWide]

/-- What follows `V` is `V` times `x`. -/
theorem classOf_next (V : Sp80038D.Block) :
    classOf (if V.getLsbD 0 then V >>> 1 ^^^ Sp80038D.R else V >>> 1).reverse = x * classOf V.reverse := by
  have constant : Sp80038D.R.reverse = (1#1).setWidth 128 <<< 7 ^^^ (1#1).setWidth 128 <<< 2 ^^^
      (1#1).setWidth 128 <<< 1 ^^^ (1#1).setWidth 128 <<< 0 := by decide +kernel
  have folds : x ^ 128 = classOf Sp80038D.R.reverse := by
    rw [constant, classOf_bits (by decide)]
  have top : V.reverse.getLsbD (128 - 1) = V.getLsbD 0 := by
    rw [BitVec.getLsbD_reverse, BitVec.getMsbD_eq_getLsbD]
    rfl
  have shift : (V >>> 1).reverse = V.reverse <<< 1 := by
    apply BitVec.eq_of_getLsbD_eq
    intro i below
    rw [BitVec.getLsbD_reverse, BitVec.getMsbD_ushiftRight, BitVec.getLsbD_shiftLeft, BitVec.getLsbD_reverse,
      decide_eq_true below, Bool.true_and, Bool.true_and]
  have both : (V >>> 1 ^^^ Sp80038D.R).reverse = V.reverse <<< 1 ^^^ Sp80038D.R.reverse := by
    apply BitVec.eq_of_getLsbD_eq
    intro i below
    rw [← shift, BitVec.getLsbD_xor, BitVec.getLsbD_reverse, BitVec.getLsbD_reverse, BitVec.getLsbD_reverse,
      BitVec.getMsbD_xor]
  have next := @residue_shift_one _ modulus _ (by decide) folds V.reverse
  rw [top] at next
  rw [apply_ite BitVec.reverse, both, shift]
  exact next

theorem classOf_reverse_xor (a b : Sp80038D.Block) :
    classOf (a ^^^ b).reverse = classOf a.reverse + classOf b.reverse := by
  have both : (a ^^^ b).reverse = a.reverse ^^^ b.reverse := by
    apply BitVec.eq_of_getLsbD_eq
    intro i _
    rw [BitVec.getLsbD_xor, BitVec.getLsbD_reverse, BitVec.getLsbD_reverse, BitVec.getLsbD_reverse, BitVec.getMsbD_xor]
  rw [both, classOf_xor]

theorem reverse_zero : (0 : Sp80038D.Block).reverse = 0 := by decide +kernel

/-- The product so far and the power of the second factor, after `k` bits of the first. -/
private def partialProduct (X Y : Sp80038D.Block) (k : Nat) : Sp80038D.Block × Sp80038D.Block :=
  (List.range k).foldl (fun state i =>
    (if X.getMsbD i then state.1 ^^^ state.2 else state.1,
      if state.2.getLsbD 0 then state.2 >>> 1 ^^^ Sp80038D.R else state.2 >>> 1)) (0, Y)

private theorem classOf_partialProduct (X Y : Sp80038D.Block) (k : Nat) :
    classOf (partialProduct X Y k).1.reverse =
        (∑ i ∈ Finset.range k, if X.reverse.getLsbD i then x ^ i else 0) * classOf Y.reverse ∧
      classOf (partialProduct X Y k).2.reverse = x ^ k * classOf Y.reverse := by
  induction k with
  | zero =>
      have zero : classOf (0 : Register) = 0 := residue_zero
      constructor
      · rw [partialProduct, List.range_zero, List.foldl_nil, reverse_zero, zero, Finset.sum_range_zero, zero_mul]
      · rw [partialProduct, List.range_zero, List.foldl_nil, pow_zero, one_mul]
  | succ k ih =>
      obtain ⟨product, power⟩ := ih
      rw [partialProduct, List.range_succ, List.foldl_append, List.foldl_cons, List.foldl_nil, ← partialProduct,
        Finset.sum_range_succ]
      constructor
      · rw [BitVec.getLsbD_reverse, add_mul, ← product]
        cases X.getMsbD k with
        | true => rw [if_pos rfl, if_pos rfl, classOf_reverse_xor, power]
        | false => rw [if_neg Bool.false_ne_true, if_neg Bool.false_ne_true, zero_mul, add_zero]
      · rw [classOf_next, power]
        ring

/-- The product of blocks is the product of their classes. -/
theorem classOf_mul (X Y : Sp80038D.Block) :
    classOf (Sp80038D.mul X Y).reverse = classOf X.reverse * classOf Y.reverse := by
  have whole : classOf X.reverse = ∑ i ∈ Finset.range 128, if X.reverse.getLsbD i then x ^ i else 0 :=
    residue_eq_sum X.reverse
  rw [whole]
  exact (classOf_partialProduct X Y 128).1

theorem getLsbD_reflect (r : Register) {i : Nat} (below : i < 128) :
    (reflect r).getLsbD i = r.getLsbD (8 * (i / 8) + (8 - 1 - i % 8)) := by
  have bit : i % 8 < 8 := Nat.mod_lt i (by decide)
  rw [reflect, vrbitq_u8, getLsbD_ofLanes _ below, BitVec.getLsbD_reverse, BitVec.getMsbD_eq_getLsbD,
    decide_eq_true bit, Bool.true_and, getLsbD_lane _ _ (by omega)]

/-- Where a bit goes, and where it comes from. -/
private theorem reflected_position {i : Nat} (below : i < 128) :
    8 * (i / 8) + (8 - 1 - i % 8) < 128 ∧ (8 * (i / 8) + (8 - 1 - i % 8)) / 8 = i / 8 ∧
      (8 * (i / 8) + (8 - 1 - i % 8)) % 8 = 8 - 1 - i % 8 := by
  omega

theorem reflect_reflect (r : Register) : reflect (reflect r) = r := by
  apply BitVec.eq_of_getLsbD_eq
  intro i below
  obtain ⟨inside, byte, place⟩ := reflected_position below
  rw [getLsbD_reflect _ below, getLsbD_reflect _ inside, byte, place]
  congr 1
  omega

/-- Reflecting what was loaded puts the bits in the order of the standard, the first lowest. -/
theorem reflect_load {bytes : Bytes} (length : bytes.length = 16) :
    reflect (vld1q bytes) = (Sp80038D.block bytes).reverse := by
  apply BitVec.eq_of_getLsbD_eq
  intro i below
  obtain ⟨inside, byte, place⟩ := reflected_position below
  have last : 128 - 1 - i < 128 := by omega
  have front : i / 8 < bytes.length := by omega
  have back : (128 - 1 - i) / 8 < bytes.reverse.length := by
    rw [List.length_reverse, length]
    omega
  have mirrored : bytes.length - 1 - (128 - 1 - i) / 8 = i / 8 := by omega
  have bit : (128 - 1 - i) % 8 = 8 - 1 - i % 8 := by omega
  rw [getLsbD_reflect _ below, BitVec.getLsbD_reverse, BitVec.getMsbD_eq_getLsbD, decide_eq_true below, Bool.true_and,
    vld1q, BitVec.getLsbD_ofNat, decide_eq_true inside, Bool.true_and, Bytes.testBit_ofLe, byte, place,
    Sp80038D.block, BitVec.getLsbD_ofNat, decide_eq_true last, Bool.true_and, Bytes.ofBe_eq_ofLe_reverse,
    Bytes.testBit_ofLe, bit, List.getD_eq_getElem _ _ front, List.getD_eq_getElem _ _ back, List.getElem_reverse]
  simp only [mirrored]

end Field

namespace Ghash

/-- The powers are those of `h`. -/
def Keyed (ghash : Ghash) (h : AdjoinRoot modulus) : Prop := ∀ i < 8, classOf (ghash.power i) = h ^ (8 - i)

private theorem power_ofFn {list : List Register} (length : list.length = 8) (acc : Register) (i : Nat) :
    (Ghash.mk (Vector.ofFn fun i : Fin 8 => list.getD i.val 0) acc).power i = list.getD i 0 := by
  rw [power, toList_ofFn_getD length]

theorem new_keyed (hBlock : Register) : (new hBlock).Keyed (classOf (reflect hBlock)) := by
  intro i inside
  rw [new, power_ofFn]
  · match i with
    | 0 | 1 | 2 | 3 | 4 | 5 | 6 | 7 =>
        simp only [List.getD_cons_zero, List.getD_cons_succ, classOf_gfMul]
        ring
  · rfl

section Groups

variable {ghash : Ghash} {h : AdjoinRoot modulus}

/-- A step of Horner's rule in classes. -/
noncomputable def horner (h y : AdjoinRoot modulus) (c : Register) : AdjoinRoot modulus := (y + classOf (reflect c)) * h

/-- What came before is multiplied by as many powers as blocks follow. -/
theorem horner_foldl (h y : AdjoinRoot modulus) (cs : List Register) :
    cs.foldl (horner h) y = y * h ^ cs.length + cs.foldl (horner h) 0 := by
  induction cs generalizing y with
  | nil => rw [List.foldl_nil, List.foldl_nil, List.length_nil, pow_zero, mul_one, add_zero]
  | cons c cs ih =>
      rw [List.foldl_cons, List.foldl_cons, ih, ih (horner h 0 c), horner, horner, List.length_cons]
      ring

/-- Unreduced products of a group add up to Horner's rule over it. -/
theorem value_group (keyed : ghash.Keyed h) (sum : Unreduced) (first : Nat) (cs : List Register)
    (powers : first + cs.length = 8) (k : Nat) (shift : Nat) (start : first = shift + k) :
    ((cs.zipIdx k).foldl (fun sum (c, i) => sum.xor (gfMulWide (reflect c) (ghash.power (shift + i)))) sum).value =
      sum.value + cs.foldl (horner h) 0 := by
  induction cs generalizing sum first k with
  | nil => rw [List.zipIdx_nil, List.foldl_nil, List.foldl_nil, add_zero]
  | cons c cs ih =>
      rw [List.length_cons] at powers
      have last : 8 - (shift + k) = cs.length + 1 := by omega
      rw [List.zipIdx_cons, List.foldl_cons, ih _ (first + 1) (by omega) _ (by omega), Unreduced.value_xor,
        value_gfMulWide, keyed _ (by omega), last, List.foldl_cons, horner_foldl h (horner h 0 c), horner]
      ring

/-- Absorbing a group is absorbing its blocks. -/
theorem classOf_absorbVectors (keyed : ghash.Keyed h) {first : Nat} {group : List Register}
    (powers : first + group.length = 8) :
    classOf (ghash.absorbVectors first group).acc = group.foldl (horner h) (classOf ghash.acc) := by
  cases group with
  | nil => rfl
  | cons c rest =>
      rw [List.length_cons] at powers
      have last : 8 - first = rest.length + 1 := by omega
      rw [absorbVectors, classOf_gfReduce, value_group keyed _ (first + 1) rest (by omega) 0 (first + 1) rfl,
        value_gfMulWide, classOf_veorq, keyed _ (by omega), last, List.foldl_cons,
        horner_foldl h (horner h (classOf ghash.acc) c), horner]
      ring

theorem classOf_absorbBlock (keyed : ghash.Keyed h) (block : Bytes) :
    classOf (ghash.absorbBlock block).acc = horner h (classOf ghash.acc) (vld1q block) := by
  rw [absorbBlock, classOf_gfMul, classOf_veorq, keyed 7 (by decide), horner, pow_one]

theorem powers_foldl (blocks : List Bytes) : (blocks.foldl absorbBlock ghash).powers = ghash.powers := by
  induction blocks generalizing ghash with
  | nil => rfl
  | cons block rest ih => rw [List.foldl_cons, ih, absorbBlock]

/-- Keys go with the powers. -/
theorem Keyed.of_powers {other : Ghash} (keyed : ghash.Keyed h) (same : other.powers = ghash.powers) : other.Keyed h := by
  intro i inside
  rw [power, same]
  exact keyed i inside

theorem classOf_foldl (keyed : ghash.Keyed h) (blocks : List Bytes) :
    classOf (blocks.foldl absorbBlock ghash).acc = (blocks.map vld1q).foldl (horner h) (classOf ghash.acc) := by
  induction blocks generalizing ghash with
  | nil => rfl
  | cons block rest ih =>
      have next : (ghash.absorbBlock block).Keyed h := keyed.of_powers rfl
      rw [List.foldl_cons, ih next, classOf_absorbBlock keyed, List.map_cons, List.foldl_cons]

/-- Absorbing a group leaves the same as absorbing its blocks one at a time. -/
theorem absorbVectors_eq (keyed : ghash.Keyed h) {first : Nat} {group : List Register}
    (powers : first + group.length = 8) :
    ghash.absorbVectors first group = (group.map vst1q).foldl absorbBlock ghash := by
  have loaded : (group.map vst1q).map vld1q = group := by
    rw [List.map_map]
    exact List.map_id'' vld1q_vst1q group
  apply Ghash.ext
  · rw [powers_foldl]
    cases group with
    | nil => rfl
    | cons c rest => rfl
  · rw [← classOf_inj, classOf_absorbVectors keyed powers, classOf_foldl keyed, loaded]

end Groups

/-- Absorb a block, with zeros behind it if it is short. -/
def absorbPadded (ghash : Ghash) (data : Bytes) : Ghash := ghash.absorbBlock (zeroPadded data)

theorem zeroPadded_of_whole {block : Bytes} (length : block.length = 16) : zeroPadded block = block := by
  rw [zeroPadded, copyAt, List.take_zero, List.nil_append, Nat.zero_add, List.drop_of_length_le, List.append_nil]
  rw [List.length_replicate, length]

/-- Loading whole blocks and storing them. -/
theorem map_load {count : Nat} {piece : Bytes} (length : piece.length = 16 * count) :
    (load piece).map vst1q = chunks 16 piece ∧ (load piece).length = count := by
  obtain ⟨few, whole⟩ := chunks_whole (by decide) length
  constructor
  · rw [load, List.map_map]
    calc (chunks 16 piece).map (vst1q ∘ vld1q)
        = (chunks 16 piece).map id := List.map_congr_left fun block member => vst1q_vld1q (whole block member)
      _ = chunks 16 piece := List.map_id _
  · rw [load, List.length_map, few]

/-- Whole blocks need no padding. -/
theorem foldl_absorbPadded (ghash : Ghash) {count : Nat} {piece : Bytes} (length : piece.length = 16 * count) :
    (chunks 16 piece).foldl absorbPadded ghash = (chunks 16 piece).foldl absorbBlock ghash := by
  obtain ⟨-, whole⟩ := chunks_whole (by decide) length
  exact List.foldl_ext _ _ _ fun ghash block member => by
    rw [absorbPadded, zeroPadded_of_whole (whole block member)]

/-- A hash that has absorbed the blocks of `front`. -/
structure Took (start ghash : Ghash) (front : Bytes) : Prop where
  whole : 16 ∣ front.length
  absorbed : ghash = (chunks 16 front).foldl absorbPadded start

theorem Took.powers {start ghash : Ghash} {front : Bytes} (took : Took start ghash front) :
    ghash.powers = start.powers := by
  obtain ⟨⟨count, length⟩, absorbed⟩ := took
  rw [absorbed, foldl_absorbPadded start length, powers_foldl]

/-- Whole blocks more. -/
theorem Took.append {start ghash : Ghash} {front : Bytes} (took : Took start ghash front) {count : Nat} {piece : Bytes}
    (length : piece.length = 16 * count) :
    Took start ((chunks 16 piece).foldl absorbBlock ghash) (front ++ piece) := by
  obtain ⟨whole, absorbed⟩ := took
  refine ⟨?_, ?_⟩
  · rw [List.length_append, length]
    exact Nat.dvd_add whole (Nat.dvd_mul_right 16 count)
  · rw [chunks_append (by decide) whole, List.foldl_append, ← absorbed, foldl_absorbPadded ghash length]

/-- A group more. -/
theorem Took.group {start ghash : Ghash} {h : AdjoinRoot modulus} (keyed : start.Keyed h) {front : Bytes}
    (took : Took start ghash front) {first count : Nat} {piece : Bytes} (length : piece.length = 16 * count)
    (powers : first + count = 8) : Took start (ghash.absorbVectors first (load piece)) (front ++ piece) := by
  obtain ⟨stored, few⟩ := map_load length
  rw [absorbVectors_eq (keyed.of_powers took.powers) (few.symm ▸ powers), stored]
  exact took.append length

theorem Took.eight {start ghash : Ghash} {h : AdjoinRoot modulus} (keyed : start.Keyed h) {front piece : Bytes}
    (took : Took start ghash front) (length : piece.length = 128) :
    Took start (ghash.absorbEightVectors (load piece)) (front ++ piece) :=
  @Took.group _ _ h keyed _ took 0 8 _ length rfl

theorem Took.four {start ghash : Ghash} {h : AdjoinRoot modulus} (keyed : start.Keyed h) {front piece : Bytes}
    (took : Took start ghash front) (length : piece.length = 64) :
    Took start (ghash.absorbFourVectors (load piece)) (front ++ piece) :=
  @Took.group _ _ h keyed _ took 4 4 _ length rfl

theorem Took.one {start ghash : Ghash} {front piece : Bytes} (took : Took start ghash front)
    (length : piece.length = 16) : Took start (ghash.absorbBlock piece) (front ++ piece) := by
  have nonempty : piece ≠ [] := by
    apply List.ne_nil_of_length_pos
    omega
  have block := @Took.append _ _ _ took 1 _ length
  rwa [chunks_of_le nonempty (Nat.le_of_eq length)] at block

/-- What is left is a last block, if anything is. -/
theorem Took.tail {start ghash : Ghash} {front rest : Bytes} (took : Took start ghash front) (short : rest.length < 16) :
    (if rest = [] then ghash else ghash.absorbBlock (zeroPadded rest)) =
      (chunks 16 (front ++ rest)).foldl absorbPadded start := by
  rw [chunks_append (by decide) took.whole, List.foldl_append, ← took.absorbed]
  split
  · next none => rw [none, chunks_nil, List.foldl_nil]
  · next some => rw [chunks_of_le some (Nat.le_of_lt short), List.foldl_cons, List.foldl_nil, absorbPadded]

/-- Absorbing in groups of eight and four, with one reduction for each, is absorbing the
    zero-padded blocks one at a time. -/
theorem absorb_eq {ghash : Ghash} {h : AdjoinRoot modulus} (keyed : ghash.Keyed h) (data : Bytes) :
    ghash.absorb data = (chunks 16 data).foldl absorbPadded ghash := by
  have start : Took ghash ghash [] := ⟨Nat.dvd_zero 16, by rw [chunks_nil, List.foldl_nil]⟩
  have eights := fun (s : Ghash) front piece (took : Took ghash s front) => @Took.eight _ _ _ keyed front piece took
  have fours := fun (s : Ghash) front piece (took : Took ghash s front) => @Took.four _ _ _ keyed front piece took
  have ones := fun (s : Ghash) front piece (took : Took ghash s front) => @Took.one _ _ front piece took
  obtain ⟨first, took, wholeFirst, -⟩ := stride_invariant (by decide) eights start data
  obtain ⟨byEights, eights⟩ : ∃ s, s = stride 128 (fun s piece => absorbEightVectors s (load piece)) ghash data := ⟨_, rfl⟩
  rw [← eights] at took wholeFirst
  obtain ⟨second, took, wholeSecond, -⟩ := stride_invariant (by decide) fours took byEights.2
  obtain ⟨byFours, fours⟩ : ∃ s, s = stride 64 (fun s piece => absorbFourVectors s (load piece)) byEights.1 byEights.2 :=
    ⟨_, rfl⟩
  rw [← fours] at took wholeSecond
  obtain ⟨third, took, wholeThird, short⟩ := stride_invariant (by decide) ones took byFours.2
  have whole := took.tail short
  rw [List.nil_append, List.append_assoc, List.append_assoc, wholeThird, wholeSecond, wholeFirst] at whole
  rw [absorb, ← whole, fours, eights]

theorem absorb_keyed {ghash : Ghash} {h : AdjoinRoot modulus} (keyed : ghash.Keyed h) (data : Bytes) :
    (ghash.absorb data).Keyed h := by
  apply keyed.of_powers
  have padded : (chunks 16 data).foldl absorbPadded ghash =
      ((chunks 16 data).map zeroPadded).foldl absorbBlock ghash := by
    rw [List.foldl_map]
    rfl
  rw [absorb_eq keyed, padded, powers_foldl]

/-- Blocks absorbed one at a time are those of the standard. -/
theorem foldl_absorbBlock_eq {start : Ghash} {H : Sp80038D.Block} (keyed : start.Keyed (classOf H.reverse))
    {blocks : List Bytes} (whole : ∀ block ∈ blocks, block.length = 16) :
    (blocks.foldl absorbBlock start).acc = (Sp80038D.ghash H start.acc.reverse (blocks.map Sp80038D.block)).reverse := by
  induction blocks generalizing start with
  | nil => exact BitVec.reverse_reverse_eq.symm
  | cons block rest ih =>
      obtain ⟨first, later⟩ := List.forall_mem_cons.mp whole
      have next : (start.absorbBlock block).Keyed (classOf H.reverse) := keyed.of_powers rfl
      have step : (start.absorbBlock block).acc =
          (Sp80038D.mul (start.acc.reverse ^^^ Sp80038D.block block) H).reverse := by
        rw [← classOf_inj, classOf_absorbBlock keyed, classOf_mul, classOf_reverse_xor, horner, reflect_load first,
          BitVec.reverse_reverse_eq]
      rw [List.foldl_cons, ih next later, step, BitVec.reverse_reverse_eq, List.map_cons]
      rfl

/-- The digest is the block of the standard. -/
theorem finish_eq {ghash : Ghash} {Y : Sp80038D.Block} (acc : ghash.acc = Y.reverse) :
    ghash.finish = Sp80038D.bytes Y := by
  have length : (Sp80038D.bytes Y).length = 16 := Bytes.be_length 16 _
  have back : Sp80038D.block (Sp80038D.bytes Y) = Y := by
    have width : 256 ^ 16 = 2 ^ 128 := by norm_num
    apply BitVec.eq_of_toNat_eq
    rw [Sp80038D.block, Sp80038D.bytes, Bytes.ofBe_be, BitVec.toNat_ofNat, width, Nat.mod_mod, Nat.mod_eq_of_lt Y.isLt]
  have reflected : reflect ghash.acc = vld1q (Sp80038D.bytes Y) := by
    rw [acc, ← back, ← reflect_load length, reflect_reflect, back]
  rw [finish, reflected, vst1q_vld1q length]

end Ghash

end Aes

end Blindplane.Crypto
