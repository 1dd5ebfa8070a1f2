import Blindplane.Crypto.Argon2.Blake2b
import Blindplane.Lib.Windows

/-! # The compression function of Argon2

A block is permuted in place, first by rows and then by columns. RFC 9106 permutes all rows
of one matrix of registers and then all columns of the next; the windows are disjoint, so
that the two are the same function. The permutation of the document is written down on its
own, on words as functions of the index.
-/

namespace Blindplane.Crypto.Argon2

open Lib

section Compression

/-- A block of 1024 bytes. -/
abbrev Block := Vector Qword 128

def fusedAdd (x y : Qword) : Qword :=
  let low := (x &&& 0xffffffff) * (y &&& 0xffffffff)
  x + y + low * 2

def blamka (v : Vector Qword 16) (a b c d : Fin 16) : Vector Qword 16 := quarter fusedAdd fusedAdd fusedAdd v a b c d

/-- The BLAKE2b-derived permutation over a window of sixteen words. -/
def permute (v : Vector Qword 16) : Vector Qword 16 :=
  RoundOps.SCHEDULE.foldl (fun v (a, b, c, d) => blamka v a b c d) v

theorem rowAt_lt (row : Fin 8) (k : Fin 16) : row.val * 16 + k.val < 128 := by omega

theorem columnAt_lt (col : Fin 8) (k : Fin 16) : col.val * 2 + 16 * (k.val / 2) + k.val % 2 < 128 := by omega

/-- A row is a window of sixteen words in a row. -/
def rowAt (row : Fin 8) (k : Fin 16) : Fin 128 := ⟨row.val * 16 + k.val, rowAt_lt row k⟩

/-- A column takes a pair of words from each row. -/
def columnAt (col : Fin 8) (k : Fin 16) : Fin 128 := ⟨col.val * 2 + 16 * (k.val / 2) + k.val % 2, columnAt_lt col k⟩

/-- The compression function `G`. -/
def compressBlocks (x y : Block) : Block :=
  let r := x.zipWith (· ^^^ ·) y
  let z := (List.finRange 8).foldl (fun z row => changeAt permute z (rowAt row)) r
  let z := (List.finRange 8).foldl (fun z col => changeAt permute z (columnAt col)) z
  z.zipWith (· ^^^ ·) r

end Compression

namespace Rfc9106

/-- The number of words a permutation takes, under which their indices are numerals. -/
local instance neZero_words : NeZero 16 := ⟨Nat.succ_ne_zero 15⟩

/-- The low 32 bits. -/
def trunc (x : Qword) : Qword := (x.setWidth 32).setWidth 64

/-- `GB`, of four words. -/
def GB (a b c d : Qword) : Qword × Qword × Qword × Qword :=
  let a := a + b + 2 * trunc a * trunc b
  let d := (d ^^^ a).rotateRight 32
  let c := c + d + 2 * trunc c * trunc d
  let b := (b ^^^ c).rotateRight 24
  let a := a + b + 2 * trunc a * trunc b
  let d := (d ^^^ a).rotateRight 16
  let c := c + d + 2 * trunc c * trunc d
  let b := (b ^^^ c).rotateRight 63
  (a, b, c, d)

/-- `GB` of the words at four indices. -/
def mixWords (v : Fin 16 → Qword) (i j k l : Fin 16) : Fin 16 → Qword :=
  let (a, b, c, d) := GB (v i) (v j) (v k) (v l)
  let v := Function.update v i a
  let v := Function.update v j b
  let v := Function.update v k c
  Function.update v l d

/-- The permutation of eight 16-byte registers, register `i` of the words `2i` and `2i + 1`. -/
def P (v : Fin 16 → Qword) : Fin 16 → Qword :=
  let v := mixWords v 0 4 8 12
  let v := mixWords v 1 5 9 13
  let v := mixWords v 2 6 10 14
  let v := mixWords v 3 7 11 15
  let v := mixWords v 0 5 10 15
  let v := mixWords v 1 6 11 12
  let v := mixWords v 2 7 8 13
  mixWords v 3 4 9 14

/-- Eight of the 64 registers of a block, of two words each. -/
def registers (z : Block) (number : Nat → Nat) (k : Fin 16) : Qword :=
  z.toList.getD (2 * number (k.val / 2) + k.val % 2) 0

theorem column_lt (i : Fin 128) : i.val % 16 / 2 < 8 := by omega

theorem pair_lt (i : Fin 128) : 2 * (i.val / 16) + i.val % 2 < 16 := by omega

theorem slot_lt (i : Fin 128) : i.val % 16 < 16 := by omega

/-- Registers lie in an 8 by 8 matrix. `P` is applied to each row of it, and then to each
    column of what comes out. -/
def G (x y : Block) : Block :=
  let r := x.zipWith (· ^^^ ·) y
  let q : Block := Vector.ofFn fun i => P (registers r fun k => 8 * (i.val / 16) + k) ⟨i.val % 16, slot_lt i⟩
  let z : Block := Vector.ofFn fun i =>
    P (registers q fun k => i.val % 16 / 2 + 8 * k) ⟨2 * (i.val / 16) + i.val % 2, pair_lt i⟩
  z.zipWith (· ^^^ ·) r

/-- A block of 1024 bytes, each word little-endian. -/
def load (bytes : Bytes) : Block := Vector.ofFn fun i => BitVec.ofNat 64 (Bytes.ofLe ((bytes.drop (8 * i.val)).take 8))

/-- The bytes of a block. -/
def bytes (block : Block) : Bytes := (List.finRange 128).flatMap fun i => Bytes.le 8 (block.get i).toNat

end Rfc9106

section Agreement

theorem and_mask_eq_trunc (x : Qword) : x &&& 0xffffffff = Rfc9106.trunc x := by
  apply BitVec.eq_of_toNat_eq
  have mask : (0xffffffff : Qword).toNat = 2 ^ 32 - 1 := rfl
  rw [BitVec.toNat_and, mask, Nat.and_two_pow_sub_one_eq_mod, Rfc9106.trunc, BitVec.toNat_setWidth, BitVec.toNat_setWidth]
  omega

theorem fusedAdd_eq (x y : Qword) : fusedAdd x y = x + y + 2 * Rfc9106.trunc x * Rfc9106.trunc y := by
  simp only [fusedAdd, and_mask_eq_trunc]
  rw [BitVec.mul_comm _ 2, BitVec.mul_assoc]

/-- Word by word, the mixing in place is `GB` of four words. -/
theorem get_blamka (v : Vector Qword 16) {a b c d : Fin 16} (distinct : [a, b, c, d].Nodup) :
    (blamka v a b c d).get = Rfc9106.mixWords v.get a b c d := by
  have mixed := get_mixed v distinct fusedAdd (fun w x => (w ^^^ x).rotateRight 32) fusedAdd
    (fun y z => (y ^^^ z).rotateRight 24) fusedAdd (fun w x => (w ^^^ x).rotateRight 16) fusedAdd
    (fun y z => (y ^^^ z).rotateRight 63)
  simp only [Rfc9106.mixWords, Rfc9106.GB, ← fusedAdd_eq]
  exact mixed

theorem get_permute (v : Vector Qword 16) : (permute v).get = Rfc9106.P v.get := by
  simp (disch := decide) only [permute, RoundOps.SCHEDULE, List.foldl_cons, List.foldl_nil, get_blamka, Rfc9106.P]

theorem window_lt (i : Fin 128) : i.val / 16 < 8 := by omega

/-- The rows split a block. -/
def rows : Lib.Partition rowAt where
  window i := ⟨i.val / 16, window_lt i⟩
  slot i := ⟨i.val % 16, Rfc9106.slot_lt i⟩
  place_slot i := by
    simp only [rowAt, Fin.ext_iff]
    omega
  window_place w k := by
    simp only [rowAt, Fin.ext_iff]
    omega
  slot_place w k := by
    simp only [rowAt, Fin.ext_iff]
    omega

/-- So do the columns. -/
def columns : Lib.Partition columnAt where
  window i := ⟨i.val % 16 / 2, Rfc9106.column_lt i⟩
  slot i := ⟨2 * (i.val / 16) + i.val % 2, Rfc9106.pair_lt i⟩
  place_slot i := by
    simp only [columnAt, Fin.ext_iff]
    omega
  window_place w k := by
    simp only [columnAt, Fin.ext_iff]
    omega
  slot_place w k := by
    simp only [columnAt, Fin.ext_iff]
    omega

theorem gather_row (z : Block) (row : Fin 8) :
    (gather z (rowAt row)).get = Rfc9106.registers z fun k => 8 * row.val + k := by
  funext k
  have position : 2 * (8 * row.val + k.val / 2) + k.val % 2 = (rowAt row k).val := by
    simp only [rowAt]
    omega
  rw [gather, Rfc9106.registers, get_ofFn, position, getD_toList]

theorem gather_column (z : Block) (col : Fin 8) :
    (gather z (columnAt col)).get = Rfc9106.registers z fun k => col.val + 8 * k := by
  funext k
  have position : 2 * (col.val + 8 * (k.val / 2)) + k.val % 2 = (columnAt col k).val := by
    simp only [columnAt]
    omega
  rw [gather, Rfc9106.registers, get_ofFn, position, getD_toList]

/-- In place or at once, the compression function is the same. -/
theorem compressBlocks_eq (x y : Block) : compressBlocks x y = Rfc9106.G x y := by
  simp only [compressBlocks, rows.foldl_changeAt, columns.foldl_changeAt, get_permute, gather_row, gather_column]
  rfl

end Agreement

section Bytes

/-- The little-endian words of 1024 bytes. -/
def blockOf (bytes : Bytes) : Block := Vector.ofFn fun i => BitVec.ofNat 64 (Bytes.readLe64 bytes (i.val * 8))

/-- Read a block; there must be enough bytes. -/
def bytesToBlock (bytes : Bytes) : Option Block := if 1024 ≤ bytes.length then some (blockOf bytes) else none

def blockToBytes (block : Block) : Bytes := block.toList.flatMap fun word => Bytes.le 8 word.toNat

theorem blockOf_eq (bytes : Bytes) : blockOf bytes = Rfc9106.load bytes := by
  simp only [blockOf, Rfc9106.load, Bytes.readLe64, Nat.mul_comm]

theorem bytesToBlock_eq {bytes : Bytes} (length : bytes.length = 1024) :
    bytesToBlock bytes = some (Rfc9106.load bytes) := by
  rw [bytesToBlock, if_pos (Nat.le_of_eq length.symm), blockOf_eq]

theorem blockToBytes_eq (block : Block) : blockToBytes block = Rfc9106.bytes block := by
  rw [blockToBytes, toList_eq, List.flatMap_map, Rfc9106.bytes]

end Bytes

end Blindplane.Crypto.Argon2
