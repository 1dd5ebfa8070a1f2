import Blindplane.Lib.Bytes
import Mathlib.Data.List.GetD
import Mathlib.Data.List.Nodup
import Mathlib.Logic.Function.Basic

/-! # Data in blocks

Data cut into pieces of one size, the last perhaps short, and what becomes of the pieces
when the data is itself a concatenation. Whole blocks in front can be taken one at a time
or several at a time; the pieces are the same.
-/

namespace Blindplane.Lib

variable {α : Type}

/-- Pieces of `size` elements; the last may be shorter. -/
def chunks (size : Nat) (data : List α) : List (List α) :=
  if done : data = [] ∨ size = 0 then [] else data.take size :: chunks size (data.drop size)
termination_by data.length
decreasing_by
  have nonempty := List.length_pos_iff.mpr (not_or.mp done).1
  have positive := (not_or.mp done).2
  rw [List.length_drop]
  omega

@[simp] theorem chunks_nil (size : Nat) : chunks size ([] : List α) = [] := by
  rw [chunks, dif_pos (.inl rfl)]

theorem chunks_of_ne_nil {size : Nat} (positive : 0 < size) {data : List α} (nonempty : data ≠ []) :
    chunks size data = data.take size :: chunks size (data.drop size) := by
  rw [chunks, dif_neg (not_or.mpr ⟨nonempty, Nat.ne_of_gt positive⟩)]

/-- Data that fits in one piece. -/
theorem chunks_of_le {size : Nat} {data : List α} (nonempty : data ≠ []) (fits : data.length ≤ size) :
    chunks size data = [data] := by
  have positive : 0 < size := (List.length_pos_iff.mpr nonempty).trans_le fits
  rw [chunks_of_ne_nil positive nonempty, List.take_of_length_le fits, List.drop_of_length_le fits, chunks_nil]

/-- One whole block in front. -/
theorem chunks_block_append {size : Nat} (positive : 0 < size) {block : List α} (whole : block.length = size)
    (rest : List α) : chunks size (block ++ rest) = block :: chunks size rest := by
  have nonempty : block ++ rest ≠ [] := by
    intro empty
    have none := congrArg List.length empty
    rw [List.length_append, whole, List.length_nil] at none
    omega
  rw [chunks_of_ne_nil positive nonempty, List.take_left' whole, List.drop_left' whole]

/-- Whole blocks in front are cut on their own. -/
theorem chunks_append {size : Nat} (positive : 0 < size) {front : List α} (whole : size ∣ front.length)
    (rest : List α) : chunks size (front ++ rest) = chunks size front ++ chunks size rest := by
  obtain ⟨count, length⟩ := whole
  induction count generalizing front with
  | zero =>
      rw [Nat.mul_zero] at length
      rw [List.eq_nil_of_length_eq_zero length, List.nil_append, chunks_nil, List.nil_append]
  | succ count ih =>
      rw [Nat.mul_succ] at length
      have first : (front.take size).length = size := by
        rw [List.length_take]
        omega
      have later : (front.drop size).length = size * count := by
        rw [List.length_drop]
        omega
      rw [← List.take_append_drop size front, List.append_assoc, chunks_block_append positive first,
        chunks_block_append positive first, ih later, List.cons_append]

theorem flatten_chunks {size : Nat} (positive : 0 < size) (data : List α) : (chunks size data).flatten = data := by
  induction data using chunks.induct size with
  | case1 data done =>
      cases done with
      | inl empty => rw [empty, chunks_nil, List.flatten_nil]
      | inr zero => exact absurd zero (Nat.ne_of_gt positive)
  | case2 data more ih =>
      rw [not_or] at more
      rw [chunks_of_ne_nil positive more.1, List.flatten_cons, ih, List.take_append_drop]

/-- No piece is empty, and none is longer than asked for. -/
theorem mem_chunks {size : Nat} {data piece : List α} (member : piece ∈ chunks size data) :
    piece ≠ [] ∧ piece.length ≤ size := by
  induction data using chunks.induct size with
  | case1 data done =>
      rw [chunks, dif_pos done] at member
      cases member
  | case2 data more ih =>
      rw [chunks, dif_neg more] at member
      cases member with
      | head =>
          rw [not_or] at more
          have some_data := List.length_pos_iff.mpr more.1
          refine ⟨List.ne_nil_of_length_pos ?_, List.length_take_le _ _⟩
          rw [List.length_take]
          omega
      | tail _ later => exact ih later

/-- Every piece of a whole number of blocks is a block, and there are so many. -/
theorem chunks_whole {size count : Nat} (positive : 0 < size) {data : List α} (length : data.length = size * count) :
    (chunks size data).length = count ∧ ∀ block ∈ chunks size data, block.length = size := by
  induction count generalizing data with
  | zero =>
      rw [List.eq_nil_of_length_eq_zero length, chunks_nil]
      exact ⟨rfl, List.forall_mem_nil _⟩
  | succ count ih =>
      rw [Nat.mul_succ] at length
      have first : (data.take size).length = size := by
        rw [List.length_take]
        omega
      have later : (data.drop size).length = size * count := by
        rw [List.length_drop]
        omega
      obtain ⟨few, whole⟩ := ih later
      rw [← List.take_append_drop size data, chunks_block_append positive first]
      exact ⟨congrArg Nat.succ few, List.forall_mem_cons.mpr ⟨first, whole⟩⟩

/-- Blocks one after the other are cut as they were. -/
theorem chunks_blocks {size : Nat} (positive : 0 < size) (blocks : List (Vector α size)) :
    chunks size (blocks.map Vector.toList).flatten = blocks.map Vector.toList := by
  induction blocks with
  | nil => exact chunks_nil size
  | cons block rest ih =>
      rw [List.map_cons, List.flatten_cons, chunks_block_append positive block.length_toList, ih]

theorem dvd_length_blocks {size : Nat} (blocks : List (Vector α size)) :
    size ∣ (blocks.map Vector.toList).flatten.length := by
  induction blocks with
  | nil => exact dvd_zero size
  | cons block rest ih =>
      rw [List.map_cons, List.flatten_cons, List.length_append, block.length_toList]
      exact Nat.dvd_add (Nat.dvd_refl size) ih

/-- The whole pieces; a short rest is left out. -/
def chunksExact (size : Nat) (data : List α) : List (List α) :=
  (chunks size data).filter fun piece => piece.length = size

theorem chunksExact_of_dvd {size : Nat} (positive : 0 < size) {data : List α} (whole : size ∣ data.length) :
    chunksExact size data = chunks size data := by
  obtain ⟨count, length⟩ := whole
  rw [chunksExact, List.filter_eq_self]
  intro piece member
  exact decide_eq_true ((chunks_whole positive length).2 piece member)

section Stride

variable {σ : Type} {size : Nat} {step : σ → List α → σ}

/-- Work through data in pieces of `size` elements as long as they are whole; what is left
    is shorter. -/
def stride (size : Nat) (step : σ → List α → σ) (s : σ) (data : List α) : σ × List α :=
  if 0 < size ∧ size ≤ data.length then stride size step (step s (data.take size)) (data.drop size)
  else (s, data)
termination_by data.length
decreasing_by
  rw [List.length_drop]
  omega

/-- What every step preserves, together with the data behind it, holds at the end. -/
theorem stride_invariant (positive : 0 < size) {P : σ → List α → Prop}
    (preserved : ∀ s front piece, P s front → piece.length = size → P (step s piece) (front ++ piece))
    {s : σ} {front : List α} (holds : P s front) (data : List α) :
    ∃ middle, P (stride size step s data).1 (front ++ middle) ∧ middle ++ (stride size step s data).2 = data ∧
      (stride size step s data).2.length < size := by
  induction length : data.length using Nat.strong_induction_on generalizing s front data with
  | _ length' ih =>
    subst length
    rw [stride]
    split
    · next more =>
      have piece : (data.take size).length = size := by
        rw [List.length_take, Nat.min_eq_left more.2]
      have shorter : (data.drop size).length < data.length := by
        rw [List.length_drop]
        omega
      obtain ⟨middle, reached, whole, short⟩ := ih _ shorter (preserved _ _ _ holds piece) _ rfl
      refine ⟨data.take size ++ middle, ?_, ?_, short⟩
      · rwa [← List.append_assoc]
      · rw [List.append_assoc, whole, List.take_append_drop]
    · next less =>
      have short : data.length < size := by omega
      exact ⟨[], by rwa [List.append_nil], List.nil_append _, short⟩

end Stride

/-- A loop in groups of `size` turns. -/
theorem foldl_range_mul {σ : Type} (f : σ → Nat → σ) (s : σ) (size count : Nat) :
    (List.range (size * count)).foldl f s =
      (List.range count).foldl (fun s t => (List.range size).foldl (fun s i => f s (size * t + i)) s) s := by
  induction count with
  | zero => rfl
  | succ count ih =>
      conv_rhs => rw [List.range_succ, List.foldl_append, ← ih]
      rw [Nat.mul_succ, List.range_add, List.foldl_append, List.foldl_map]
      rfl

theorem getD_map_range (f : Nat → α) {n i : Nat} (inside : i < n) (fill : α) : ((List.range n).map f).getD i fill = f i := by
  rw [List.getD_eq_getElem _ _ (by rwa [List.length_map, List.length_range]), List.getElem_map, List.getElem_range]

theorem getD_drop (list : List α) (n i : Nat) (fill : α) : (list.drop n).getD i fill = list.getD (n + i) fill := by
  rw [List.getD_eq_getElem?_getD, List.getElem?_drop, ← List.getD_eq_getElem?_getD]

/-- A buffer with `data` written at `start`. -/
def copyAt (buffer : List α) (start : Nat) (data : List α) : List α :=
  buffer.take start ++ data ++ buffer.drop (start + data.length)

theorem copyAt_length {buffer data : List α} {start : Nat} (inside : start + data.length ≤ buffer.length) :
    (copyAt buffer start data).length = buffer.length := by
  simp only [copyAt, List.length_append, List.length_take, List.length_drop]
  omega

/-- What is in front of the end of the data written. -/
theorem take_copyAt {buffer data : List α} {start : Nat} (inside : start ≤ buffer.length) :
    (copyAt buffer start data).take (start + data.length) = buffer.take start ++ data := by
  rw [copyAt]
  apply List.take_left'
  rw [List.length_append, List.length_take, Nat.min_eq_left inside]

section Put

variable {β : Type} {n : Nat}

/-- An array with the element at `i` replaced. -/
def put (v : Vector α n) (i : Fin n) (x : α) : Vector α n := v.set i x i.isLt

@[simp] theorem get_put_self (v : Vector α n) (i : Fin n) (x : α) : (put v i x).get i = x :=
  Vector.getElem_set_self i.isLt

theorem get_put (v : Vector α n) (i j : Fin n) (x : α) : (put v i x).get j = if i = j then x else v.get j := by
  have element : (put v i x).get j = if i.val = j.val then x else v.get j := Vector.getElem_set i.isLt j.isLt
  rw [element]
  simp only [Fin.ext_iff]

@[simp] theorem put_get (v : Vector α n) (i : Fin n) : put v i (v.get i) = v := Vector.set_getElem_self i.isLt

@[simp] theorem put_put (v : Vector α n) (i : Fin n) (x y : α) : put (put v i x) i y = put v i y :=
  Vector.set_set x i.isLt

theorem map_put (f : α → β) (v : Vector α n) (i : Fin n) (x : α) : (put v i x).map f = put (v.map f) i (f x) :=
  Vector.map_set

theorem get_map (f : α → β) (v : Vector α n) (i : Fin n) : f (v.get i) = (v.map f).get i :=
  (Vector.getElem_map f i.isLt).symm

@[simp] theorem get_ofFn (f : Fin n → α) (i : Fin n) : (Vector.ofFn f).get i = f i := Vector.getElem_ofFn i.isLt

theorem getD_toList (v : Vector α n) (i : Fin n) (fill : α) : v.toList.getD i.val fill = v.get i := by
  rw [List.getD_eq_getElem _ _ (by rw [Vector.length_toList]; exact i.isLt), Vector.getElem_toList]
  rfl

theorem toList_eq (v : Vector α n) : v.toList = (List.finRange n).map v.get := by
  apply List.ext_getElem
  · rw [Vector.length_toList, List.length_map, List.length_finRange]
  · intro i _ _
    rw [Vector.getElem_toList, List.getElem_map, List.getElem_finRange]
    rfl

theorem vector_ext {v w : Vector α n} (same : ∀ i, v.get i = w.get i) : v = w :=
  Vector.ext fun i inside => same ⟨i, inside⟩

/-- Four words, each changed twice, and every time by the one that was changed before it. -/
theorem get_mixed (v : Vector α n) {a b c d : Fin n} (distinct : [a, b, c, d].Nodup) (A D C B A' D' C' B' : α → α → α) :
    (let v := put v a (A (v.get a) (v.get b))
      let v := put v d (D (v.get d) (v.get a))
      let v := put v c (C (v.get c) (v.get d))
      let v := put v b (B (v.get b) (v.get c))
      let v := put v a (A' (v.get a) (v.get b))
      let v := put v d (D' (v.get d) (v.get a))
      let v := put v c (C' (v.get c) (v.get d))
      put v b (B' (v.get b) (v.get c))).get =
    (let x := A (v.get a) (v.get b)
      let w := D (v.get d) x
      let z := C (v.get c) w
      let y := B (v.get b) z
      let x := A' x y
      let w := D' w x
      let z := C' z w
      Function.update (Function.update (Function.update (Function.update v.get a x) b (B' y z)) c z) d w) := by
  simp only [List.nodup_cons, List.mem_cons, List.not_mem_nil, or_false, not_or, List.nodup_nil, and_true,
    not_false_eq_true] at distinct
  obtain ⟨⟨ab, ac, ad⟩, ⟨bc, bd⟩, cd⟩ := distinct
  funext j
  simp only [get_put, Function.update_apply, ab, ac, ad, bc, bd, cd, Ne.symm ab, Ne.symm ac, Ne.symm ad, Ne.symm bc,
    Ne.symm bd, Ne.symm cd, ↓reduceIte]
  -- of what is put at an index the last counts
  grind

end Put

/-- The first bytes as an array. -/
def fixed (n : Nat) (bytes : Bytes) : Vector UInt8 n := Vector.ofFn fun i => bytes.getD i.val 0

/-- An array written out from a list of its length. -/
theorem toList_ofFn_getD {n : Nat} {list : List α} (length : list.length = n) (fill : α) :
    (Vector.ofFn fun i : Fin n => list.getD i.val fill).toList = list := by
  apply List.ext_getElem
  · rw [Vector.length_toList, length]
  · intro i inside inside'
    rw [Vector.length_toList] at inside
    rw [Vector.getElem_toList, Vector.getElem_ofFn, List.getD_eq_getElem _ _ inside']

theorem fixed_toList {n : Nat} {bytes : Bytes} (length : bytes.length = n) : (fixed n bytes).toList = bytes :=
  toList_ofFn_getD length 0

end Blindplane.Lib
