import Blindplane.Lib.Blocks
import Mathlib.Data.List.FinRange

/-! # Windows of a vector

A function of a few words is applied to parts of a vector: the words at some positions are
gathered, changed and scattered back. Where the windows split the vector between them,
changing one after the other is changing each as it was at first.
-/

namespace Blindplane.Lib

variable {α : Type} {n m s : Nat}

/-- The words at some positions. -/
def gather (z : Vector α n) (place : Fin s → Fin n) : Vector α s := Vector.ofFn fun k => z.get (place k)

/-- Words written back, one after the other. -/
def scatter (z : Vector α n) (place : Fin s → Fin n) (v : Vector α s) : Vector α n :=
  (List.finRange s).foldl (fun z k => put z (place k) (v.get k)) z

/-- A window changed in place. -/
def changeAt (f : Vector α s → Vector α s) (z : Vector α n) (place : Fin s → Fin n) : Vector α n :=
  scatter z place (f (gather z place))

section Scatter

variable (place : Fin s → Fin n) (v : Vector α s)

theorem get_foldl_put_ne (slots : List (Fin s)) (z : Vector α n) {i : Fin n} (elsewhere : ∀ k ∈ slots, place k ≠ i) :
    (slots.foldl (fun z k => put z (place k) (v.get k)) z).get i = z.get i := by
  induction slots generalizing z with
  | nil => rfl
  | cons k rest ih =>
      obtain ⟨other, others⟩ := List.forall_mem_cons.mp elsewhere
      rw [List.foldl_cons, ih _ others, get_put, if_neg other]

theorem get_foldl_put (injective : Function.Injective place) {slots : List (Fin s)} (z : Vector α n) {k : Fin s}
    (member : k ∈ slots) : (slots.foldl (fun z k => put z (place k) (v.get k)) z).get (place k) = v.get k := by
  induction slots generalizing z with
  | nil => cases member
  | cons j rest ih =>
      by_cases later : k ∈ rest
      · exact ih _ later
      · have here : k = j := by simpa [later] using member
        have elsewhere : ∀ i ∈ rest, place i ≠ place k := by
          intro i inside same
          exact later (injective same ▸ inside)
        rw [List.foldl_cons, get_foldl_put_ne place v rest _ elsewhere, here, get_put_self]

theorem get_scatter_ne (z : Vector α n) {i : Fin n} (elsewhere : ∀ k, place k ≠ i) :
    (scatter z place v).get i = z.get i :=
  get_foldl_put_ne place v _ z fun k _ => elsewhere k

theorem get_scatter (injective : Function.Injective place) (z : Vector α n) (k : Fin s) :
    (scatter z place v).get (place k) = v.get k :=
  get_foldl_put place v injective z (List.mem_finRange k)

end Scatter

/-- Windows that split a vector between them: every position is one slot of one window. -/
structure Partition (place : Fin m → Fin s → Fin n) where
  window : Fin n → Fin m
  slot : Fin n → Fin s
  place_slot : ∀ i, place (window i) (slot i) = i
  window_place : ∀ w k, window (place w k) = w
  slot_place : ∀ w k, slot (place w k) = k

namespace Partition

variable {place : Fin m → Fin s → Fin n} (partition : Partition place)
include partition

theorem injective (w : Fin m) : Function.Injective (place w) := by
  intro j k same
  rw [← partition.slot_place w j, same, partition.slot_place]

theorem ne_of_window_ne {w : Fin m} {i : Fin n} (other : partition.window i ≠ w) (k : Fin s) : place w k ≠ i := by
  rintro rfl
  exact other (partition.window_place w k)

/-- A change of one window, position by position. -/
theorem get_changeAt (f : Vector α s → Vector α s) (z : Vector α n) (w : Fin m) (i : Fin n) :
    (changeAt f z (place w)).get i =
      if partition.window i = w then (f (gather z (place w))).get (partition.slot i) else z.get i := by
  by_cases here : partition.window i = w
  · have slot := partition.place_slot i
    rw [here] at slot
    rw [if_pos here, changeAt]
    conv_lhs => rw [← slot]
    exact get_scatter _ _ (partition.injective w) z _
  · rw [if_neg here]
    exact get_scatter_ne _ _ z (partition.ne_of_window_ne here)

/-- The other windows stay as they were. -/
theorem gather_changeAt (f : Vector α s → Vector α s) (z : Vector α n) {w w' : Fin m} (other : w' ≠ w) :
    gather (changeAt f z (place w)) (place w') = gather z (place w') := by
  apply vector_ext
  intro k
  rw [gather, gather, get_ofFn, get_ofFn, partition.get_changeAt, partition.window_place, if_neg other]

theorem get_foldl_changeAt (f : Vector α s → Vector α s) {windows : List (Fin m)} (once : windows.Nodup) (z : Vector α n)
    (i : Fin n) :
    (windows.foldl (fun z w => changeAt f z (place w)) z).get i =
      if partition.window i ∈ windows then (f (gather z (place (partition.window i)))).get (partition.slot i)
      else z.get i := by
  induction windows generalizing z with
  | nil => simp
  | cons w rest ih =>
      obtain ⟨fresh, once⟩ := List.nodup_cons.mp once
      rw [List.foldl_cons, ih once]
      by_cases later : partition.window i ∈ rest
      · have other : partition.window i ≠ w := by
          rintro same
          exact fresh (same ▸ later)
        rw [if_pos later, if_pos (List.mem_cons_of_mem _ later), partition.gather_changeAt f z other]
      · rw [if_neg later, partition.get_changeAt]
        by_cases here : partition.window i = w
        · simp [here]
        · simp [here, later]

/-- Changing all windows, one after the other, changes each as it was at first. -/
theorem foldl_changeAt (f : Vector α s → Vector α s) (z : Vector α n) :
    (List.finRange m).foldl (fun z w => changeAt f z (place w)) z =
      Vector.ofFn fun i => (f (gather z (place (partition.window i)))).get (partition.slot i) := by
  apply vector_ext
  intro i
  rw [partition.get_foldl_changeAt f (List.nodup_finRange m), if_pos (List.mem_finRange _), get_ofFn]

end Partition

end Blindplane.Lib
