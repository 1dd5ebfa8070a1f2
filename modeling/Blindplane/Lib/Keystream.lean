import Blindplane.Lib.Blocks
import Mathlib.Algebra.Divisibility.Basic
import Mathlib.Data.List.GetD

/-! # Keystreams

A keystream is a block for every number. XORing it into data is defined byte by byte, and
so does not depend on how many blocks are produced at a time: data whose front is a whole
number of blocks can be treated part by part, and a group of blocks can be XORed at once.
-/

namespace Blindplane.Lib

/-- Data with a key stream XORed into it; the shorter of the two decides the length. -/
def xorBytes (data key : Bytes) : Bytes := data.zipWith (· ^^^ ·) key

/-- Data with blocks of `size` bytes XORed into it, block after block. -/
def xorStream (size : Nat) (block : Nat → Bytes) (data : Bytes) : Bytes :=
  data.mapIdx fun j byte => byte ^^^ (block (j / size)).getD (j % size) 0

@[simp] theorem xorBytes_length (data key : Bytes) : (xorBytes data key).length = min data.length key.length :=
  List.length_zipWith

theorem xorBytes_append {front front' back back' : Bytes} (length : front.length = front'.length) :
    xorBytes (front ++ back) (front' ++ back') = xorBytes front front' ++ xorBytes back back' :=
  List.zipWith_append length

/-- A key stream that is longer than the data is used as far as the data goes. -/
theorem xorBytes_take (data key : Bytes) : xorBytes data (key.take data.length) = xorBytes data key := by
  induction data generalizing key with
  | nil => rfl
  | cons byte rest ih =>
      cases key with
      | nil => rfl
      | cons k ks => exact congrArg (_ :: ·) (ih ks)

/-- A key stream in two parts. -/
theorem xorBytes_split {data front back : Bytes} (fits : front.length ≤ data.length) :
    xorBytes data (front ++ back) =
      xorBytes (data.take front.length) front ++ xorBytes (data.drop front.length) back := by
  have length : (data.take front.length).length = front.length := by
    rw [List.length_take, Nat.min_eq_left fits]
  rw [← xorBytes_append length, List.take_append_drop]

section Streams

variable {size : Nat} {block : Nat → Bytes}

@[simp] theorem xorStream_nil : xorStream size block [] = [] := rfl

@[simp] theorem xorStream_length (data : Bytes) : (xorStream size block data).length = data.length :=
  List.length_mapIdx

/-- XORing the stream twice gives the data back. -/
theorem xorStream_xorStream (data : Bytes) : xorStream size block (xorStream size block data) = data := by
  apply List.ext_getElem
  · rw [xorStream_length, xorStream_length]
  · intro j _ _
    simp only [xorStream, List.getElem_mapIdx]
    rw [UInt8.xor_assoc, UInt8.xor_self, UInt8.xor_zero]

/-- Behind whole blocks the stream goes on with the next block. -/
theorem xorStream_append (positive : 0 < size) {front : Bytes} (whole : size ∣ front.length) (back : Bytes) :
    xorStream size block (front ++ back) =
      xorStream size block front ++ xorStream size (fun i => block (front.length / size + i)) back := by
  obtain ⟨count, length⟩ := whole
  rw [xorStream, List.mapIdx_append]
  congr 1
  apply List.mapIdx_eq_mapIdx_iff.mpr
  intro j _
  rw [length, Nat.mul_div_cancel_left _ positive, Nat.add_comm j, Nat.mul_add_div positive, Nat.mul_add_mod]

/-- One block at most. -/
theorem xorStream_of_le {data : Bytes} (whole : (block 0).length = size) (fits : data.length ≤ size) :
    xorStream size block data = xorBytes data (block 0) := by
  apply List.ext_getElem
  · rw [xorStream_length, xorBytes_length, whole, Nat.min_eq_left fits]
  · intro j inside _
    rw [xorStream_length] at inside
    have below := inside.trans_le fits
    simp only [xorStream, xorBytes, List.getElem_mapIdx, List.getElem_zipWith]
    rw [Nat.div_eq_of_lt below, Nat.mod_eq_of_lt below, List.getD_eq_getElem _ _ (whole ▸ below)]

/-- A group of blocks XORed at once. -/
theorem xorStream_group {data : Bytes} {count : Nat} (positive : 0 < size) (whole : ∀ i, (block i).length = size)
    (fits : data.length ≤ size * count) :
    xorStream size block data = xorBytes data ((List.range count).flatMap block) := by
  induction count generalizing data block with
  | zero =>
      rw [Nat.mul_zero, Nat.le_zero, List.length_eq_zero_iff] at fits
      rw [fits]
      rfl
  | succ count ih =>
      rw [List.range_succ_eq_map, List.flatMap_cons, List.flatMap_map]
      rcases Nat.le_total data.length size with short | long
      · have cut : (block 0 ++ (List.range count).flatMap fun i => block (i + 1)).take data.length =
            (block 0).take data.length := List.take_append_of_le_length (whole 0 ▸ short)
        rw [xorStream_of_le (whole 0) short, ← xorBytes_take, ← xorBytes_take data (_ ++ _)]
        exact congrArg (xorBytes data) cut.symm
      · have first : (data.take size).length = size := by
          rw [List.length_take]
          omega
        have later : (data.drop size).length ≤ size * count := by
          rw [List.length_drop]
          rw [Nat.mul_succ] at fits
          omega
        rw [← List.take_append_drop size data, xorStream_append positive (dvd_of_eq first.symm),
          xorBytes_append (first.trans (whole 0).symm), xorStream_of_le (whole 0) (Nat.le_of_eq first), first,
          Nat.div_self positive]
        congr 1
        have next := @ih (fun i => block (1 + i)) (data.drop size) (fun i => whole _) later
        rw [next]
        simp only [Nat.add_comm 1]

/-- Whole blocks XORed one by one. -/
theorem xorStream_blocks {data : Bytes} {count : Nat} (positive : 0 < size) (whole : ∀ i, (block i).length = size)
    (length : data.length = size * count) :
    xorStream size block data =
      (List.range count).flatMap fun i => xorBytes ((data.drop (size * i)).take size) (block i) := by
  induction count generalizing data block with
  | zero =>
      rw [Nat.mul_zero, List.length_eq_zero_iff] at length
      rw [length]
      rfl
  | succ count ih =>
      rw [Nat.mul_succ] at length
      have first : (data.take size).length = size := by
        rw [List.length_take]
        omega
      have later : (data.drop size).length = size * count := by
        rw [List.length_drop]
        omega
      have next := @ih (fun i => block (1 + i)) (data.drop size) (fun i => whole _) later
      have front := @xorStream_append size block positive (data.take size) (dvd_of_eq first.symm) (data.drop size)
      rw [List.take_append_drop, first, Nat.div_self positive, next, xorStream_of_le (whole 0) (Nat.le_of_eq first)]
        at front
      rw [front, List.range_succ_eq_map, List.flatMap_cons, List.flatMap_map, Nat.mul_zero, List.drop_zero]
      simp only [List.drop_drop, Nat.succ_eq_add_one, Nat.mul_succ, Nat.add_comm]

/-- Piece by piece, the last perhaps short. -/
theorem xorStream_chunks (positive : 0 < size) (whole : ∀ i, (block i).length = size) (data : Bytes) (k : Nat) :
    ((chunks size data).zipIdx k).flatMap (fun (piece, i) => xorBytes piece (block i)) =
      xorStream size (fun i => block (k + i)) data := by
  induction length : data.length using Nat.strong_induction_on generalizing data k with
  | _ length' ih =>
    subst length
    by_cases empty : data = []
    · rw [empty, chunks_nil, xorStream_nil]
      rfl
    · have some := List.length_pos_iff.mpr empty
      have shorter : (data.drop size).length < data.length := by
        rw [List.length_drop]
        omega
      rw [chunks_of_ne_nil positive empty, List.zipIdx_cons, List.flatMap_cons, ih _ shorter _ _ rfl]
      rcases Nat.lt_or_ge data.length size with short | long
      · have least : data.length ≤ size := Nat.le_of_lt short
        rw [List.take_of_length_le least, List.drop_of_length_le least, xorStream_nil, List.append_nil,
          @xorStream_of_le _ (fun i => block (k + i)) _ (whole _) least, Nat.add_zero]
      · have first : (data.take size).length = size := by
          rw [List.length_take, Nat.min_eq_left long]
        have front := @xorStream_append _ (fun i => block (k + i)) positive _ (dvd_of_eq first.symm) (data.drop size)
        rw [List.take_append_drop, first, Nat.div_self positive,
          @xorStream_of_le _ (fun i => block (k + i)) _ (whole _) (Nat.le_of_eq first), Nat.add_zero] at front
        rw [front]
        simp only [Nat.add_assoc]

end Streams

end Blindplane.Lib
