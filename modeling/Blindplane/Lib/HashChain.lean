import Mathlib.Data.List.Chain
import Mathlib.Data.Set.Function

/-! # Histories linked by hashes

Each item of a history names the hash of the item before it. As long as the hash tells
the items at hand apart, the hash of the last item commits to everything before it: two
histories that end alike differ only in how far back they reach.
-/

namespace Blindplane.Lib.HashChain

variable {α H : Type*} (hash prev : α → H)

/-- A history, oldest item first, in which every item names the one before it. -/
def Linked (history : List α) : Prop :=
  history.IsChain fun older newer => prev newer = hash older

variable {hash prev}

/-- Walking two histories back from a common tip, newest item first. -/
private theorem prefix_of_same_tip {items : Set α} (distinct : items.InjOn hash) :
    ∀ {x y : α} {xs ys : List α}, (∀ z ∈ x :: xs, z ∈ items) → (∀ z ∈ y :: ys, z ∈ items) →
      (x :: xs).IsChain (fun newer older => prev newer = hash older) →
      (y :: ys).IsChain (fun newer older => prev newer = hash older) →
      hash x = hash y → xs.length ≤ ys.length → x :: xs <+: y :: ys
  | x, y, [], ys, insideX, insideY, _, _, tip, _ => by
      obtain rfl := distinct (insideX x List.mem_cons_self) (insideY y List.mem_cons_self) tip
      exact ⟨ys, rfl⟩
  | x, y, x' :: xs, [], _, _, _, _, _, longer => absurd longer (Nat.not_succ_le_zero _)
  | x, y, x' :: xs, y' :: ys, insideX, insideY, linkedX, linkedY, tip, longer => by
      obtain rfl := distinct (insideX x List.mem_cons_self) (insideY y List.mem_cons_self) tip
      obtain ⟨linkX, restX⟩ := List.isChain_cons_cons.mp linkedX
      obtain ⟨linkY, restY⟩ := List.isChain_cons_cons.mp linkedY
      have earlier := prefix_of_same_tip distinct
        (fun z member => insideX z (List.mem_cons_of_mem _ member))
        (fun z member => insideY z (List.mem_cons_of_mem _ member)) restX restY
        (linkX.symm.trans linkY) (Nat.le_of_succ_le_succ longer)
      exact List.cons_prefix_cons.mpr ⟨rfl, earlier⟩

/-- Two histories whose last items hash alike: the shorter ends the longer. -/
theorem Linked.suffix_of_same_tip {items : Set α} (distinct : items.InjOn hash) {xs ys : List α}
    (linkedX : Linked hash prev xs) (linkedY : Linked hash prev ys) (insideX : ∀ z ∈ xs, z ∈ items)
    (insideY : ∀ z ∈ ys, z ∈ items) {x y : α} (lastX : xs.getLast? = some x)
    (lastY : ys.getLast? = some y) (tip : hash x = hash y) (longer : xs.length ≤ ys.length) :
    xs <:+ ys := by
  obtain ⟨xs, rfl⟩ := List.getLast?_eq_some_iff.mp lastX
  obtain ⟨ys, rfl⟩ := List.getLast?_eq_some_iff.mp lastY
  rw [← List.reverse_prefix]
  simp only [List.reverse_append, List.reverse_cons, List.reverse_nil, List.nil_append,
    List.singleton_append]
  have backX : (x :: xs.reverse).IsChain fun newer older => prev newer = hash older := by
    simpa using List.isChain_reverse.mpr linkedX
  have backY : (y :: ys.reverse).IsChain fun newer older => prev newer = hash older := by
    simpa using List.isChain_reverse.mpr linkedY
  refine prefix_of_same_tip distinct ?_ ?_ backX backY tip (by simpa using longer)
  · simpa [or_comm] using insideX
  · simpa [or_comm] using insideY

end Blindplane.Lib.HashChain
