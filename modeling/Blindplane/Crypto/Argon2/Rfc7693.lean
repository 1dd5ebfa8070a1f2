import Blindplane.Crypto.Argon2.Blake2b
import Mathlib.Data.Nat.Sqrt
import Mathlib.Logic.Function.Basic

/-! # BLAKE2b as RFC 7693 has it

The mixing of words, the compression function and the digest in the terms of the document,
on working vectors as functions of the index. The routines of the program compute them.
-/

namespace Blindplane.Crypto.Argon2

open Lib

namespace Rfc7693

/-- The lengths of the two vectors, under which their indices are numerals. -/
local instance neZero_eight : NeZero 8 := ⟨Nat.succ_ne_zero 7⟩

local instance neZero_sixteen : NeZero 16 := ⟨Nat.succ_ne_zero 15⟩

section Document

/-- The fractional parts of the square roots of the first eight primes. -/
def IV (i : Nat) : Qword := BitVec.ofNat 64 (Nat.sqrt ([2, 3, 5, 7, 11, 13, 17, 19].getD i 0 * 2 ^ 128))

/-- The message schedule, which has ten rows. -/
def SIGMA : List (List Nat) := [
    [0, 1, 2, 3, 4, 5, 6, 7, 8, 9, 10, 11, 12, 13, 14, 15],
    [14, 10, 4, 8, 9, 15, 13, 6, 1, 12, 0, 2, 11, 7, 5, 3],
    [11, 8, 12, 0, 5, 2, 15, 13, 10, 14, 3, 6, 7, 1, 9, 4],
    [7, 9, 3, 1, 13, 12, 11, 14, 2, 6, 5, 10, 4, 0, 15, 8],
    [9, 0, 5, 7, 2, 4, 10, 15, 14, 1, 11, 12, 6, 8, 3, 13],
    [2, 12, 6, 10, 0, 11, 8, 3, 4, 13, 7, 5, 15, 14, 1, 9],
    [12, 5, 1, 15, 14, 13, 4, 10, 0, 7, 6, 3, 9, 2, 8, 11],
    [13, 11, 7, 14, 12, 1, 3, 9, 5, 0, 15, 4, 8, 6, 2, 10],
    [6, 15, 14, 9, 11, 3, 0, 8, 12, 2, 13, 7, 1, 4, 10, 5],
    [10, 2, 8, 4, 7, 6, 1, 5, 15, 11, 9, 14, 3, 12, 13, 0]]

/-- The mixing function. -/
def G (v : Fin 16 → Qword) (a b c d : Fin 16) (x y : Qword) : Fin 16 → Qword :=
  let v := Function.update v a (v a + v b + x)
  let v := Function.update v d ((v d ^^^ v a).rotateRight 32)
  let v := Function.update v c (v c + v d)
  let v := Function.update v b ((v b ^^^ v c).rotateRight 24)
  let v := Function.update v a (v a + v b + y)
  let v := Function.update v d ((v d ^^^ v a).rotateRight 16)
  let v := Function.update v c (v c + v d)
  Function.update v b ((v b ^^^ v c).rotateRight 63)

/-- Round `i`, of the words of a block. -/
def round (m : Nat → Qword) (v : Fin 16 → Qword) (i : Nat) : Fin 16 → Qword :=
  let s j := (SIGMA.getD (i % 10) []).getD j 0
  let v := G v 0 4 8 12 (m (s 0)) (m (s 1))
  let v := G v 1 5 9 13 (m (s 2)) (m (s 3))
  let v := G v 2 6 10 14 (m (s 4)) (m (s 5))
  let v := G v 3 7 11 15 (m (s 6)) (m (s 7))
  let v := G v 0 5 10 15 (m (s 8)) (m (s 9))
  let v := G v 1 6 11 12 (m (s 10)) (m (s 11))
  let v := G v 2 7 8 13 (m (s 12)) (m (s 13))
  G v 3 4 9 14 (m (s 14)) (m (s 15))

/-- The first half of the working vector is the state, the second the initialization vector. -/
def halves (h : Fin 8 → Qword) (i : Fin 16) : Qword := if low : i.val < 8 then h ⟨i.val, low⟩ else IV (i.val - 8)

/-- The offset counter and the flag of the last block are put in. -/
def start (h : Fin 8 → Qword) (t : BitVec 128) (f : Bool) : Fin 16 → Qword :=
  let v := halves h
  let v := Function.update v 12 (v 12 ^^^ t.setWidth 64)
  let v := Function.update v 13 (v 13 ^^^ (t >>> 64).setWidth 64)
  if f then Function.update v 14 (v 14 ^^^ BitVec.allOnes 64) else v

/-- The compression function, of twelve rounds. -/
def F (h : Fin 8 → Qword) (block : Bytes) (t : BitVec 128) (f : Bool) : Fin 8 → Qword :=
  let m i := BitVec.ofNat 64 (Bytes.ofLe ((block.drop (8 * i)).take 8))
  let v := (List.range 12).foldl (round m) (start h t f)
  fun i => h i ^^^ v (i.castAdd 8) ^^^ v (i.natAdd 8)

/-- `BLAKE2b` without a key. -/
def digest (outputLen : Nat) (message : Bytes) : Bytes :=
  let h : Fin 8 → Qword := fun i => IV i.val
  let h := Function.update h 0 (h 0 ^^^ 0x01010000 ^^^ BitVec.ofNat 64 outputLen)
  let h := (calls message).foldl (fun h call => F h call.block call.counter call.last) h
  ((List.finRange 8).flatMap fun i => Bytes.le 8 (h i).toNat).take outputLen

end Document

section Routines

variable {v : Vector Qword 16}

/-- A word is the fractional part of a square root that lies within its last place. -/
theorem root_eq {p whole : Nat} {word : Qword}
    (low : (whole * 2 ^ 64 + word.toNat) * (whole * 2 ^ 64 + word.toNat) ≤ p * 2 ^ 128)
    (high : p * 2 ^ 128 < (whole * 2 ^ 64 + word.toNat + 1) * (whole * 2 ^ 64 + word.toNat + 1)) :
    word = BitVec.ofNat 64 (Nat.sqrt (p * 2 ^ 128)) := by
  have short := word.isLt
  apply BitVec.eq_of_toNat_eq
  rw [← Nat.eq_sqrt.mpr ⟨low, high⟩, BitVec.toNat_ofNat]
  omega

theorem IV_eq {i : Nat} (inside : i < 8) : BLAKE2B_IV.getD i 0 = IV i := by
  have square : ∀ i < 8, ∃ whole < 5,
      (whole * 2 ^ 64 + (BLAKE2B_IV.getD i 0).toNat) * (whole * 2 ^ 64 + (BLAKE2B_IV.getD i 0).toNat) ≤
        [2, 3, 5, 7, 11, 13, 17, 19].getD i 0 * 2 ^ 128 ∧
      [2, 3, 5, 7, 11, 13, 17, 19].getD i 0 * 2 ^ 128 <
        (whole * 2 ^ 64 + (BLAKE2B_IV.getD i 0).toNat + 1) * (whole * 2 ^ 64 + (BLAKE2B_IV.getD i 0).toNat + 1) := by
    decide +kernel
  obtain ⟨whole, -, low, high⟩ := square i inside
  exact root_eq low high

theorem get_put_eq {α : Type} {n : Nat} (v : Vector α n) (i : Fin n) (x : α) :
    (put v i x).get = Function.update v.get i x := by
  funext j
  simp only [get_put, Function.update_apply, eq_comm]

theorem get_mix (v : Vector Qword 16) (a b c d : Fin 16) (x y : Qword) :
    (mix v a b c d x y).get = G v.get a b c d x y := by
  simp only [mix, quarter, get_put_eq, G]

theorem SIGMA_eq : Argon2.SIGMA = (List.range 12).map fun i => SIGMA.getD (i % 10) [] := rfl

theorem get_mixRound (m : Nat → Qword) (v : Vector Qword 16) (i : Nat) :
    (mixRound m v (SIGMA.getD (i % 10) [])).get = round m v.get i := by
  simp only [mixRound, RoundOps.SCHEDULE, List.zipIdx_cons, List.zipIdx_nil, List.foldl_cons, List.foldl_nil, get_mix, round]

theorem get_rounds (m : Nat → Qword) (v : Vector Qword 16) :
    (Argon2.SIGMA.foldl (mixRound m) v).get = (List.range 12).foldl (round m) v.get := by
  have step : ∀ v i, round m v.get i = (mixRound m v (SIGMA.getD (i % 10) [])).get := by
    intro v i
    exact (get_mixRound m v i).symm
  rw [SIGMA_eq, List.foldl_map]
  exact (List.foldl_hom Vector.get step).symm

theorem get_start (h : Vector Qword 8) (counter : BitVec 128) (last : Bool) :
    (Vector.ofFn fun i : Fin 16 =>
      let word := if i.val < 8 then h.toList.getD i.val 0 else BLAKE2B_IV.getD (i.val - 8) 0
      if i.val = 12 then word ^^^ counter.setWidth 64
      else if i.val = 13 then word ^^^ (counter >>> 64).setWidth 64
      else if i.val = 14 ∧ last then ~~~word
      else word).get = start h.get counter last := by
  funext i
  have word : (if i.val < 8 then h.toList.getD i.val 0 else BLAKE2B_IV.getD (i.val - 8) 0) = halves h.get i := by
    rw [halves]
    split
    · next low => exact getD_toList h ⟨i.val, low⟩ 0
    · exact IV_eq (by omega)
  have place : ∀ k : Fin 16, i.val = k.val ↔ i = k := fun k => Fin.ext_iff.symm
  have twelfth : i.val = 12 ↔ i = 12 := place 12
  have thirteenth : i.val = 13 ↔ i = 13 := place 13
  have fourteenth : i.val = 14 ↔ i = 14 := place 14
  rw [get_ofFn]
  simp only [word, start, twelfth, thirteenth, fourteenth]
  by_cases at12 : i = 12
  · subst at12
    cases last <;> simp
  · by_cases at13 : i = 13
    · subst at13
      cases last <;> simp
    · cases last with
      | false => simp [at12, at13]
      | true =>
          by_cases at14 : i = 14
          · subst at14
            simp only [Function.update_apply, BitVec.xor_allOnes, Fin.reduceEq, ↓reduceIte, and_self]
          · simp [at12, at13, at14]

/-- The routine is the compression function of the document. -/
theorem get_compress (h : Vector Qword 8) (block : Bytes) (counter : BitVec 128) (last : Bool) :
    (compress h block counter last).get = F h.get block counter last := by
  have words : (fun i => BitVec.ofNat 64 (Bytes.readLe64 block (i * 8))) =
      fun i => BitVec.ofNat 64 (Bytes.ofLe ((block.drop (8 * i)).take 8)) := by
    funext i
    rw [Bytes.readLe64, Nat.mul_comm]
  funext i
  simp only [compress, get_ofFn, words, F, ← get_start, ← get_rounds]
  generalize Argon2.SIGMA.foldl _ _ = v
  have low := getD_toList v (i.castAdd 8) 0
  have high := getD_toList v (i.natAdd 8) 0
  rw [Fin.val_castAdd] at low
  rw [Fin.val_natAdd, Nat.add_comm] at high
  rw [low, high, BitVec.xor_assoc]

/-- The state after some compressions. -/
def run (s : Vector Qword 8) (call : Call) : Vector Qword 8 := compress s call.block call.counter call.last

/-- The digest is what the recorded compressions leave. -/
theorem blake2b_eq_run (outputLen : Nat) (message : Bytes) :
    blake2b outputLen message = (stateBytes ((calls message).foldl run (initial outputLen))).take outputLen := by
  simp only [calls, wholeCalls, List.foldl_append, List.foldl_map]
  rfl

theorem stateBytes_eq (s : Vector Qword 8) :
    stateBytes s = (List.finRange 8).flatMap fun i => Bytes.le 8 (s.get i).toNat := by
  rw [stateBytes, toList_eq, List.flatMap_map]

theorem get_initial (outputLen : Nat) :
    (initial outputLen).get = Function.update (fun i : Fin 8 => IV i.val) 0 (IV 0 ^^^ 0x01010000 ^^^ BitVec.ofNat 64 outputLen) := by
  funext i
  rw [initial, get_ofFn, IV_eq i.isLt]
  cases i using Fin.cases with
  | zero => simp [BitVec.xor_assoc]
  | succ i => simp

/-- The digest is the one of the document. -/
theorem blake2b_eq (outputLen : Nat) (message : Bytes) : blake2b outputLen message = digest outputLen message := by
  have step : ∀ (s : Vector Qword 8) (call : Call), F s.get call.block call.counter call.last = (run s call).get := by
    intro s call
    exact (get_compress s call.block call.counter call.last).symm
  have fold : (calls message).foldl (fun h call => F h call.block call.counter call.last) (initial outputLen).get =
      ((calls message).foldl run (initial outputLen)).get := List.foldl_hom Vector.get step
  rw [get_initial] at fold
  rw [blake2b_eq_run, stateBytes_eq, ← fold]
  rfl

end Routines

end Rfc7693

end Blindplane.Crypto.Argon2
