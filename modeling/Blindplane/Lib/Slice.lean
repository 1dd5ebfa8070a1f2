import Blindplane.Lib.Blocks

/-! # Slices in range

Indexing, slicing and copying fail outside the bounds of the data, and a computation over a
range of indices fails when one of its steps does. A rule for loops carries an invariant
through such a computation and shows that it does not fail.
-/

namespace Blindplane.Lib

variable {α σ : Type}

/-- `&data[start..stop]`. -/
def slice (data : List α) (start stop : Nat) : Option (List α) :=
  if start ≤ stop ∧ stop ≤ data.length then some ((data.take stop).drop start) else none

/-- `data[start..stop].copy_from_slice(source)`, which insists on equal lengths. -/
def copyFromSlice (data : List α) (start stop : Nat) (source : List α) : Option (List α) :=
  if start ≤ stop ∧ stop ≤ data.length ∧ source.length = stop - start then some (copyAt data start source) else none

/-- `data[i] = x`. -/
def store (data : List α) (i : Nat) (x : α) : Option (List α) :=
  if i < data.length then some (data.set i x) else none

theorem slice_eq {data : List α} {start stop : Nat} (ordered : start ≤ stop) (inside : stop ≤ data.length) :
    slice data start stop = some ((data.take stop).drop start) :=
  if_pos ⟨ordered, inside⟩

theorem slice_zero {data : List α} {stop : Nat} (inside : stop ≤ data.length) :
    slice data 0 stop = some (data.take stop) :=
  slice_eq (Nat.zero_le stop) inside

theorem copyFromSlice_eq {data source : List α} {start stop : Nat} (inside : stop ≤ data.length)
    (length : start + source.length = stop) : copyFromSlice data start stop source = some (copyAt data start source) := by
  have bounds : start ≤ stop ∧ stop ≤ data.length ∧ source.length = stop - start := by omega
  exact if_pos bounds

theorem store_eq {data : List α} {i : Nat} (inside : i < data.length) (x : α) : store data i x = some (data.set i x) :=
  if_pos inside

theorem range_append (m n : Nat) : List.range m ++ List.range' m n = List.range (m + n) := by
  have joined := @List.range'_append_1 0 m n
  rwa [Nat.zero_add, ← List.range_eq_range', ← List.range_eq_range'] at joined

/-- A loop whose steps keep an invariant and do not fail. -/
theorem foldlM_range'_some {P : Nat → σ → Prop} {f : σ → Nat → Option σ} {start count : Nat}
    (step : ∀ i s, start ≤ i → i < start + count → P i s → ∃ s', f s i = some s' ∧ P (i + 1) s') {s : σ}
    (initial : P start s) : ∃ s', (List.range' start count).foldlM f s = some s' ∧ P (start + count) s' := by
  induction count generalizing start s with
  | zero => exact ⟨s, rfl, initial⟩
  | succ count ih =>
      obtain ⟨s', ran, next⟩ := step start s (Nat.le_refl start) (by omega) initial
      have later : ∀ i s, start + 1 ≤ i → i < start + 1 + count → P i s → ∃ s', f s i = some s' ∧ P (i + 1) s' := by
        intro i s above below
        exact step i s (by omega) (by omega)
      obtain ⟨last, rest, final⟩ := ih later next
      refine ⟨last, ?_, ?_⟩
      · rw [List.range'_succ, List.foldlM_cons, ran]
        exact rest
      · rwa [Nat.add_right_comm] at final

theorem foldlM_range_some {P : Nat → σ → Prop} {f : σ → Nat → Option σ} {count : Nat}
    (step : ∀ i s, i < count → P i s → ∃ s', f s i = some s' ∧ P (i + 1) s') {s : σ} (initial : P 0 s) :
    ∃ s', (List.range count).foldlM f s = some s' ∧ P count s' := by
  have step' : ∀ i s, 0 ≤ i → i < 0 + count → P i s → ∃ s', f s i = some s' ∧ P (i + 1) s' := by
    intro i s _ below
    exact step i s (by omega)
  obtain ⟨s', ran, final⟩ := foldlM_range'_some step' initial
  rw [List.range_eq_range']
  exact ⟨s', ran, by rwa [Nat.zero_add] at final⟩

end Blindplane.Lib
