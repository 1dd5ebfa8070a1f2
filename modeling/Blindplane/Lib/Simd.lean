import Blindplane.Lib.Keystream
import Blindplane.Lib.LittleEndian
import Mathlib.Tactic.Ring

/-! # Vector registers

A 128-bit register is read in lanes of whatever width an instruction works in: lane `i` of
width `w` is the bits from `w * i` on, and reinterpreting a register as another type of
vector leaves its bits alone. The instructions are defined lane by lane, as the AArch64
intrinsics of the same names are documented; memory is little-endian.
-/

namespace Blindplane.Lib

/-- A 128-bit vector register. -/
abbrev Register := BitVec 128

/-- XORing numerals is XORing their bytes. -/
theorem le_xor (width a b : Nat) : Bytes.le width (a ^^^ b) = xorBytes (Bytes.le width a) (Bytes.le width b) := by
  induction width generalizing a b with
  | zero => rfl
  | succ width ih =>
      have cons : ∀ n, Bytes.le (width + 1) n = UInt8.ofNat (n % 2 ^ 8) :: Bytes.le width (n / 2 ^ 8) := fun _ => rfl
      have first : UInt8.ofNat ((a ^^^ b) % 2 ^ 8) = UInt8.ofNat (a % 2 ^ 8) ^^^ UInt8.ofNat (b % 2 ^ 8) := by
        rw [Nat.xor_mod_two_pow, UInt8.ofNat_xor]
      rw [cons, cons, cons, Nat.xor_div_two_pow, ih, first]
      rfl

namespace Simd

/-- Lane `i` of width `w`. -/
def lane (w : Nat) (r : Register) (i : Nat) : BitVec w := r.extractLsb' (w * i) w

/-- The register with these bits. -/
def ofBits (bit : Nat → Bool) : Register := (BitVec.iunfoldr (fun k _ => ((), bit k.val)) ()).2

/-- The register with these lanes. -/
def ofLanes (w : Nat) (f : Nat → BitVec w) : Register := ofBits fun k => (f (k / w)).getLsbD (k % w)

section Intrinsics

def vdupq_n_u32 (x : BitVec 32) : Register := ofLanes 32 fun _ => x

def vdupq_n_u8 (x : BitVec 8) : Register := ofLanes 8 fun _ => x

def vaddq_u32 (a b : Register) : Register := ofLanes 32 fun i => lane 32 a i + lane 32 b i

def vaddq_u64 (a b : Register) : Register := ofLanes 64 fun i => lane 64 a i + lane 64 b i

/-- `veorq_u8` and `veorq_u32`: lanes do not matter. -/
def veorq (a b : Register) : Register := a ^^^ b

def vshlq_n_u32 (n : Nat) (a : Register) : Register := ofLanes 32 fun i => lane 32 a i <<< n

/-- Shift right and insert: the bits the shift leaves empty stay those of `a`. -/
def vsriq_n_u32 (n : Nat) (a b : Register) : Register :=
  ofLanes 32 fun i => (lane 32 a i &&& ~~~(BitVec.allOnes 32 >>> n)) ||| (lane 32 b i >>> n)

/-- Reverse the 16-bit elements in each 32-bit word. -/
def vrev32q_u16 (a : Register) : Register :=
  ofLanes 16 fun i => lane 16 a (if i % 2 = 0 then i + 1 else i - 1)

/-- Look bytes up in a table of 16; indices outside it give zero. -/
def vqtbl1q_u8 (table index : Register) : Register :=
  ofLanes 8 fun i => if (lane 8 index i).toNat < 16 then lane 8 table (lane 8 index i).toNat else 0

/-- Interleave the even lanes of two registers. -/
def vtrn1q (w : Nat) (a b : Register) : Register :=
  ofLanes w fun i => if i % 2 = 0 then lane w a i else lane w b (i - 1)

/-- Interleave the odd lanes of two registers. -/
def vtrn2q (w : Nat) (a b : Register) : Register :=
  ofLanes w fun i => if i % 2 = 0 then lane w a (i + 1) else lane w b i

/-- Bytes of two registers side by side, from byte `n` of the first on. -/
def vextq_u8 (n : Nat) (a b : Register) : Register :=
  ofLanes 8 fun i => if n + i < 16 then lane 8 a (n + i) else lane 8 b (n + i - 16)

/-- Double words of two registers side by side, from number `n` of the first on. -/
def vextq_u64 (n : Nat) (a b : Register) : Register :=
  ofLanes 64 fun i => if n + i < 2 then lane 64 a (n + i) else lane 64 b (n + i - 2)

/-- Reverse the bytes of every element of `size` bytes: `vrev32q_u8` and `vrev64q_u8`. -/
def vrevq_u8 (size : Nat) (a : Register) : Register :=
  ofLanes 8 fun i => lane 8 a (size * (i / size) + (size - 1 - i % size))

/-- Reverse the bits of every byte. -/
def vrbitq_u8 (a : Register) : Register := ofLanes 8 fun i => (lane 8 a i).reverse

/-- Multiply polynomials over the field of two elements. -/
def vmull_p64 (a b : BitVec 64) : Register :=
  (List.range 64).foldl (fun product i => if a.getLsbD i then product ^^^ b.setWidth 128 <<< i else product) 0

/-- Multiply the upper halves. -/
def vmull_high_p64 (a b : Register) : Register := vmull_p64 (lane 64 a 1) (lane 64 b 1)

/-- Load four words. -/
def vld1q_u32 (words : List (BitVec 32)) : Register := ofLanes 32 fun i => words.getD i 0

/-- Load two double words. -/
def vld1q_u64 (words : List (BitVec 64)) : Register := ofLanes 64 fun i => words.getD i 0

/-- Load 16 bytes. -/
def vld1q (bytes : Bytes) : Register := BitVec.ofNat 128 (Bytes.ofLe bytes)

/-- Store 16 bytes. -/
def vst1q (r : Register) : Bytes := Bytes.le 16 r.toNat

end Intrinsics

section Lanes

variable {w : Nat}

theorem getLsbD_lane (r : Register) (i : Nat) {j : Nat} (inside : j < w) :
    (lane w r i).getLsbD j = r.getLsbD (w * i + j) := by
  rw [lane, BitVec.getLsbD_extractLsb', decide_eq_true inside, Bool.true_and]

theorem getLsbD_ofBits (bit : Nat → Bool) {k : Nat} (inside : k < 128) : (ofBits bit).getLsbD k = bit k :=
  BitVec.iunfoldr_getLsbD (fun _ => ()) ⟨k, inside⟩ fun _ => rfl

theorem getLsbD_ofLanes (f : Nat → BitVec w) {k : Nat} (inside : k < 128) :
    (ofLanes w f).getLsbD k = (f (k / w)).getLsbD (k % w) :=
  getLsbD_ofBits _ inside

@[simp] theorem lane_ofLanes (f : Nat → BitVec w) {i : Nat} (inside : w * i + w ≤ 128) :
    lane w (ofLanes w f) i = f i := by
  apply BitVec.eq_of_getLsbD_eq
  intro j below
  have position : w * i + j < 128 := by omega
  rw [getLsbD_lane _ _ below, getLsbD_ofLanes _ position, Nat.mul_add_div (Nat.zero_lt_of_lt below), Nat.mul_add_mod, Nat.div_eq_of_lt below, Nat.mod_eq_of_lt below,
    Nat.add_zero]

theorem vdupq_n_u8_zero : vdupq_n_u8 0 = 0 := by
  apply BitVec.eq_of_getLsbD_eq
  intro j below
  rw [vdupq_n_u8, getLsbD_ofLanes _ below]
  exact BitVec.getLsbD_zero.trans BitVec.getLsbD_zero.symm

/-- Lanes of a lane. -/
theorem extractLsb'_lane (r : Register) (i k part : Nat) (inside : k * part + part ≤ w) :
    (lane w r i).extractLsb' (part * k) part = r.extractLsb' (w * i + part * k) part := by
  apply BitVec.eq_of_getLsbD_eq
  intro j below
  have within : part * k + j < w := by
    rw [Nat.mul_comm]
    omega
  rw [BitVec.getLsbD_extractLsb', BitVec.getLsbD_extractLsb', decide_eq_true below, Bool.true_and, Bool.true_and,
    getLsbD_lane _ _ within, Nat.add_assoc]

@[simp] theorem lane_veorq (a b : Register) (i : Nat) : lane w (veorq a b) i = lane w a i ^^^ lane w b i := by
  rw [lane, lane, lane, veorq, BitVec.extractLsb'_xor]

theorem lane_toNat (r : Register) (i : Nat) : (lane w r i).toNat = r.toNat / 2 ^ (w * i) % 2 ^ w := by
  rw [lane, BitVec.extractLsb'_toNat, Nat.shiftRight_eq_div_pow]

/-- A quarter of a register is a half of its half. -/
theorem lane_half (r : Register) (k e : Nat) (inside : e < 2) :
    lane 32 r (2 * k + e) = (lane 64 r k).extractLsb' (32 * e) 32 := by
  have position : 32 * (2 * k + e) = 64 * k + 32 * e := by omega
  rw [extractLsb'_lane _ _ _ _ (by omega), lane, position]

/-- Memory holds the words one after the other. -/
theorem vst1q_words (r : Register) :
    vst1q r = Bytes.le 4 (lane 32 r 0).toNat ++ (Bytes.le 4 (lane 32 r 1).toNat ++
      (Bytes.le 4 (lane 32 r 2).toNat ++ Bytes.le 4 (lane 32 r 3).toNat)) := by
  have width : 2 ^ 32 = 256 ^ 4 := by decide
  have word : ∀ i, Bytes.le 4 (lane 32 r i).toNat = Bytes.le 4 (r.toNat / 2 ^ (32 * i)) := by
    intro i
    rw [lane_toNat, width, Bytes.le_mod]
  rw [word, word, word, word, vst1q, Bytes.le_add 4 12, Bytes.le_add 4 8, Bytes.le_add 4 4, Nat.div_div_eq_div_mul,
    Nat.div_div_eq_div_mul]
  norm_num

/-- Loading keeps what is stored, and XORing registers XORs what they store. -/
theorem vst1q_vld1q {bytes : Bytes} (length : bytes.length = 16) : vst1q (vld1q bytes) = bytes := by
  have below := Bytes.ofLe_lt bytes
  have width : 256 ^ 16 = 2 ^ 128 := by norm_num
  rw [length, width] at below
  rw [vst1q, vld1q, BitVec.toNat_ofNat, Nat.mod_eq_of_lt below, ← length, Bytes.le_ofLe]

theorem vst1q_veorq (a b : Register) : vst1q (veorq a b) = xorBytes (vst1q a) (vst1q b) := by
  rw [vst1q, vst1q, vst1q, veorq, BitVec.toNat_xor, le_xor]

/-- Storing keeps what is loaded. -/
theorem vld1q_vst1q (r : Register) : vld1q (vst1q r) = r := by
  have width : 256 ^ 16 = 2 ^ 128 := by norm_num
  apply BitVec.eq_of_toNat_eq
  rw [vld1q, vst1q, Bytes.ofLe_le, BitVec.toNat_ofNat, width, Nat.mod_mod, Nat.mod_eq_of_lt r.isLt]

/-- Moving by half a register moves halves. -/
theorem lane_vextq_low (a b : Register) : lane 64 (vextq_u8 8 a b) 0 = lane 64 a 1 := by
  apply BitVec.eq_of_getLsbD_eq
  intro j below
  have byte : 8 + (64 * 0 + j) / 8 < 16 := by omega
  rw [getLsbD_lane _ _ below, vextq_u8, getLsbD_ofLanes _ (by omega), if_pos byte, getLsbD_lane _ _ (by omega),
    getLsbD_lane _ _ below]
  congr 1
  omega

theorem lane_vextq_high (a b : Register) : lane 64 (vextq_u8 8 a b) 1 = lane 64 b 0 := by
  apply BitVec.eq_of_getLsbD_eq
  intro j below
  have byte : ¬8 + (64 * 1 + j) / 8 < 16 := by omega
  rw [getLsbD_lane _ _ below, vextq_u8, getLsbD_ofLanes _ (by omega), if_neg byte, getLsbD_lane _ _ (by omega),
    getLsbD_lane _ _ below]
  congr 1
  omega

/-- A byte of memory. -/
theorem lane_vld1q (bytes : Bytes) {i : Nat} (inside : i < 16) :
    lane 8 (vld1q bytes) i = (bytes.getD i 0).toBitVec := by
  apply BitVec.eq_of_getLsbD_eq
  intro j below
  have byte : (8 * i + j) / 8 = i := by omega
  have bit : (8 * i + j) % 8 = j := by omega
  have position : 8 * i + j < 128 := by omega
  rw [getLsbD_lane _ _ below, vld1q, BitVec.getLsbD_ofNat, decide_eq_true position, Bool.true_and, Bytes.testBit_ofLe, byte,
    bit]
  rfl

/-- An element whose bytes are reversed is a big-endian numeral of memory. -/
theorem lane_vrevq_u8 {size i : Nat} {bytes : Bytes} (positive : 0 < size) (inside : size * i + size ≤ 16)
    (length : bytes.length = 16) :
    lane (8 * size) (vrevq_u8 size (vld1q bytes)) i =
      BitVec.ofNat (8 * size) (Bytes.ofBe ((bytes.drop (i * size)).take size)) := by
  apply BitVec.eq_of_getLsbD_eq
  intro j below
  have within : j / 8 < size := by omega
  have position : 8 * size * i + j < 128 := by
    have scaled : 8 * size * i = 8 * (size * i) := Nat.mul_assoc 8 size i
    omega
  have byte : (8 * size * i + j) / 8 = size * i + j / 8 := by
    rw [Nat.mul_assoc, Nat.mul_add_div (by decide)]
  have bit : (8 * size * i + j) % 8 = j % 8 := by
    rw [Nat.mul_assoc, Nat.mul_add_mod]
  have group : (size * i + j / 8) / size = i := by
    rw [Nat.mul_add_div positive, Nat.div_eq_of_lt within, Nat.add_zero]
  have place : (size * i + j / 8) % size = j / 8 := by
    rw [Nat.mul_add_mod, Nat.mod_eq_of_lt within]
  have piece : ((bytes.drop (i * size)).take size).length = size := by
    rw [List.length_take, List.length_drop, length, Nat.mul_comm i]
    omega
  rw [getLsbD_lane _ _ below, vrevq_u8, getLsbD_ofLanes _ position, byte, bit, group, place,
    lane_vld1q _ (by omega), BitVec.getLsbD_ofNat, decide_eq_true below, Bool.true_and, Bytes.ofBe_eq_ofLe_reverse,
    Bytes.testBit_ofLe, List.getD_eq_getElem _ _ (by rw [length]; omega),
    List.getD_eq_getElem _ _ (by rw [List.length_reverse, piece]; exact within), List.getElem_reverse,
    List.getElem_take, List.getElem_drop]
  rw [Nat.mul_comm i] at piece
  simp only [Nat.mul_comm i size, piece]
  rfl

/-- A big-endian element of data that is loaded 16 bytes at a time. -/
theorem lane_vrevq_u8_piece {size count t i : Nat} {data : Bytes} (whole : size * count = 16) (inside : i < count)
    (room : t * 16 + 16 ≤ data.length) :
    lane (8 * size) (vrevq_u8 size (vld1q ((data.drop (t * 16)).take 16))) i =
      BitVec.ofNat (8 * size) (Bytes.ofBe ((data.drop ((count * t + i) * size)).take size)) := by
  have positive : 0 < size := by
    rcases Nat.eq_zero_or_pos size with rfl | positive
    · rw [Nat.zero_mul] at whole
      cases whole
    · exact positive
  have element : size * i + size ≤ 16 := by
    rw [← whole, ← Nat.mul_succ]
    exact Nat.mul_le_mul_left size inside
  have piece : ((data.drop (t * 16)).take 16).length = 16 := by
    rw [List.length_take, List.length_drop]
    omega
  have position : t * 16 + i * size = (count * t + i) * size := by
    rw [← whole]
    ring
  have kept : min size (16 - i * size) = size := by
    rw [Nat.mul_comm i]
    omega
  rw [lane_vrevq_u8 positive element piece, List.drop_take, List.take_take, kept, List.drop_drop, position]

@[simp] theorem vst1q_length (r : Register) : (vst1q r).length = 16 := Bytes.le_length 16 _

end Lanes

end Simd

end Blindplane.Lib
