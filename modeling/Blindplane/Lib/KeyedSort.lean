import Mathlib.Data.List.Chain
import Mathlib.Data.List.Sort

/-! # Sorting by a key

Items sorted by a key under a lawful comparison. After the sort equal keys are neighbours, so
that comparing neighbours finds every repetition, and a list in which it finds none is
strictly ascending.
-/

namespace Blindplane.Lib.KeyedSort

open Std

variable {α κ : Type} (cmp : κ → κ → Ordering) (key : α → κ)

/-- Items in the order of their keys, and equal ones in the order they came in. -/
def sortBy (items : List α) : List α :=
  items.insertionSort fun left right => (cmp (key left) (key right)).isLE

theorem sortBy_perm (items : List α) : (sortBy cmp key items).Perm items :=
  List.perm_insertionSort _ items

/-- Comparing neighbours, as a chain. -/
theorem isChain_ne_iff {items : List α} :
    items.IsChain (fun left right => key left ≠ key right) ↔
      ¬ ∃ pair ∈ items.zip items.tail, key pair.1 = key pair.2 := by
  induction items with
  | nil => simp
  | cons first rest ih =>
      cases rest with
      | nil => simp
      | cons second rest =>
          simp only [List.isChain_cons_cons, ih, List.tail_cons, List.zip_cons_cons, List.exists_mem_cons_iff, not_or]

/-- Every repetition, as pairs. -/
theorem nodup_keys_iff {items : List α} :
    (items.map key).Nodup ↔ items.Pairwise fun left right => key left ≠ key right := by
  rw [List.Nodup, List.pairwise_map]

variable [TransCmp cmp]

theorem sortBy_ascending (items : List α) :
    (sortBy cmp key items).Pairwise fun left right => (cmp (key left) (key right)).isLE := by
  let below (left right : α) : Prop := (cmp (key left) (key right)).isLE
  have total : Std.Total below := by
    constructor
    intro left right
    have swapped : cmp (key right) (key left) = (cmp (key left) (key right)).swap := OrientedCmp.eq_swap
    show (cmp (key left) (key right)).isLE ∨ (cmp (key right) (key left)).isLE
    rw [swapped]
    cases cmp (key left) (key right) <;> simp
  have transitive : IsTrans α below := ⟨fun _ _ _ first second => TransCmp.isLE_trans first second⟩
  exact List.pairwise_insertionSort below items

variable [LawfulEqCmp cmp]

/-- Neighbours of a sorted list differ only if all of it is strictly ascending. -/
theorem sortBy_strict {items : List α}
    (apart : (sortBy cmp key items).IsChain fun left right => key left ≠ key right) :
    (sortBy cmp key items).Pairwise fun left right => cmp (key left) (key right) = .lt := by
  have transitive : IsTrans α fun left right => cmp (key left) (key right) = .lt :=
    ⟨fun _ _ _ first second => TransCmp.lt_trans first second⟩
  have ascending := (sortBy_ascending cmp key items).isChain
  have strict {left right : α} (le : (cmp (key left) (key right)).isLE) (ne : key left ≠ key right) :
      cmp (key left) (key right) = .lt := by
    cases order : cmp (key left) (key right) with
    | lt => rfl
    | eq => exact absurd (LawfulEqCmp.eq_of_compare order) ne
    | gt => simp [order] at le
  rw [List.isChain_iff_forall_rel_of_append_cons_cons] at ascending apart
  rw [← List.isChain_iff_pairwise, List.isChain_iff_forall_rel_of_append_cons_cons]
  intro left right before after split
  exact strict (ascending split) (apart split)

/-- After the sort comparing neighbours finds every repetition. -/
theorem repeats_iff {items : List α} :
    (∃ pair ∈ (sortBy cmp key items).zip (sortBy cmp key items).tail, key pair.1 = key pair.2) ↔
      ¬ (items.map key).Nodup := by
  have keys : ((sortBy cmp key items).map key).Perm (items.map key) := (sortBy_perm cmp key items).map key
  rw [← keys.nodup_iff, nodup_keys_iff, iff_not_comm, Iff.comm, ← isChain_ne_iff]
  constructor
  · intro apart
    refine (sortBy_strict cmp key apart).imp fun {left right} below same => ?_
    have self : cmp (key right) (key right) = .eq := ReflCmp.compare_self
    rw [same, self] at below
    cases below
  · exact List.Pairwise.isChain

/-- A list whose keys do not repeat is strictly ascending after the sort. -/
theorem sortBy_strict_of_nodup {items : List α} (distinct : (items.map key).Nodup) :
    (sortBy cmp key items).Pairwise fun left right => cmp (key left) (key right) = .lt := by
  apply sortBy_strict
  rw [isChain_ne_iff, repeats_iff]
  exact not_not.mpr distinct

end Blindplane.Lib.KeyedSort
