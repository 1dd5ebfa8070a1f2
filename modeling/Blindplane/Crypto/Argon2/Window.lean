import Blindplane.Crypto.Argon2.Fill

/-! # The window of references

What a block may refer to, said of the memory of the program: the index is that of a block
already made, and in later passes the rest of the segment being rewritten is left out.
-/

namespace Blindplane.Crypto.Argon2

open Lib Rfc9106

section Window

variable {shape : Shape} {pass slice index : Nat}

theorem reference_ge_oldest (shape : Shape) (n : Nat) (j : Qword) : shape.oldest n ≤ shape.reference n j := Nat.le_add_right _ _

/-- The place of the reference is not that of a block within reach in front of it. -/
theorem reference_mod_ne (inside : shape.Inside pass slice index) (j : Qword) {k : Nat}
    (last : k ≤ shape.number pass slice index) (behind : shape.number pass slice index < k + 2) :
    shape.reference (shape.number pass slice index) j % shape.columns ≠ k % shape.columns := by
  obtain ⟨made, held⟩ := inside.reference_bounds j
  exact mod_ne_mod (by omega) (by omega)

/-- In the first pass the memory has not wrapped around. -/
theorem reference_first (inside : shape.Inside 0 slice index) (j : Qword) :
    shape.reference (shape.number 0 slice index) j % shape.columns + 2 ≤ shape.segment * slice + index := by
  obtain ⟨made, -⟩ := inside.reference_bounds j
  have below := inside.lt_columns
  rw [Shape.number, Nat.mul_zero, Nat.zero_add] at made ⊢
  rw [Nat.mod_eq_of_lt (by omega)]
  exact made

/-- In later passes the reference is in front of the block being written, or behind its
    whole segment. -/
theorem reference_later (inside : shape.Inside (pass + 1) slice index) (j : Qword) :
    shape.reference (shape.number (pass + 1) slice index) j % shape.columns < shape.segment * slice + index ∨
      shape.segment * (slice + 1) ≤ shape.reference (shape.number (pass + 1) slice index) j % shape.columns := by
  obtain ⟨made, -⟩ := inside.reference_bounds j
  have oldest := reference_ge_oldest shape (shape.number (pass + 1) slice index) j
  have below := inside.lt_columns
  rw [inside.oldest_eq] at oldest
  generalize shape.reference (shape.number (pass + 1) slice index) j = reference at made oldest ⊢
  rw [Shape.number] at made
  by_cases rewritten : shape.columns * (pass + 1) ≤ reference
  · obtain ⟨r, rfl⟩ := Nat.exists_eq_add_of_le rewritten
    left
    rw [Nat.mul_add_mod, Nat.mod_eq_of_lt (by omega)]
    omega
  · right
    have round : shape.columns * (pass + 1) = shape.columns * pass + shape.columns := Nat.mul_succ _ _
    have order : (slice + 1) * shape.segment = shape.segment * (slice + 1) := Nat.mul_comm _ _
    by_cases last : slice = 3
    · simp only [Nat.succ_ne_zero, last, ↓reduceIte] at oldest
      omega
    · simp only [Nat.succ_ne_zero, last, ↓reduceIte, Nat.add_sub_cancel, order] at oldest
      obtain ⟨r, rfl⟩ := Nat.exists_eq_add_of_le (Nat.le_of_add_right_le oldest)
      rw [Nat.mul_add_mod, Nat.mod_eq_of_lt (by omega)]
      omega

/-- Wherever the fill loop calls it, and whatever the word, `referenceIndex` returns the index
    of a block of the memory other than the one being written and the one before it: in the
    first pass of one already made, later not of one of this segment still to be rewritten.
    The number of blocks is a 32-bit one. -/
theorem referenceIndex_window (blocks : UInt32) {segmentLength : Nat} (whole : blocks.toNat = 4 * segmentLength)
    (wide : 2 ≤ segmentLength) {pass slice index : Nat} (few : slice < 4) (begun : startIndex pass slice ≤ index)
    (within : index < segmentLength) (word : Qword) :
    ∃ reference, referenceIndex word pass slice index segmentLength blocks.toNat = some reference ∧
      reference < blocks.toNat ∧ reference ≠ slice * segmentLength + index ∧
      (∃ previous, previousIndex (slice * segmentLength + index) blocks.toNat = some previous ∧ reference ≠ previous) ∧
      (pass = 0 → reference + 2 ≤ slice * segmentLength + index) ∧
      (pass ≠ 0 → reference < slice * segmentLength + index ∨ (slice + 1) * segmentLength ≤ reference) := by
  let shape : Shape := ⟨segmentLength, 1⟩
  have columns : blocks.toNat = shape.columns := whole
  have inside : shape.Inside pass slice index :=
    { second := two_le_number wide begun
      slice := few
      index := within
      wide
      narrow := whole ▸ blocks.toNat_lt }
  have positive : 0 < shape.columns := Nat.zero_lt_of_lt inside.lt_columns
  have second := inside.second
  rw [columns, Nat.mul_comm slice, Nat.mul_comm (slice + 1)]
  refine ⟨_, referenceIndex_eq inside word, Nat.mod_lt _ positive, ?_, ⟨_, previous_eq inside, ?_⟩, ?_, ?_⟩
  · rw [← inside.mod_columns]
    exact reference_mod_ne inside word (Nat.le_refl _) (by omega)
  · exact reference_mod_ne inside word (Nat.sub_le _ _) (by omega)
  · rintro rfl
    exact reference_first inside word
  · intro later
    obtain ⟨before, rfl⟩ := Nat.exists_eq_succ_of_ne_zero later
    exact reference_later inside word

/-- The first block of the second pass over the least memory. -/
theorem referenceIndex_window_least :
    ∃ reference, referenceIndex 0 1 0 0 2 8 = some reference ∧ reference < 8 ∧ reference ≠ 0 * 2 + 0 ∧
      (∃ previous, previousIndex (0 * 2 + 0) 8 = some previous ∧ reference ≠ previous) ∧
      ((1 : Nat) = 0 → reference + 2 ≤ 0 * 2 + 0) ∧ ((1 : Nat) ≠ 0 → reference < 0 * 2 + 0 ∨ (0 + 1) * 2 ≤ reference) :=
  referenceIndex_window 8 (by decide : (8 : UInt32).toNat = 4 * 2) (Nat.le_refl 2) (by decide : 0 < 4) (Nat.zero_le _)
    Nat.two_pos 0

end Window

end Blindplane.Crypto.Argon2
