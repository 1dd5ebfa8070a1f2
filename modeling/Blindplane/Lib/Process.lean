import Blindplane.Lib.Checked
import Mathlib.Data.List.Basic

/-! # Computations with a state that stop at the first failure

The state is that of a reader over its input, or of a stream of random bytes. A failed
step ends the whole computation, its state with it.
-/

namespace Blindplane.Lib

open Checked

abbrev Process (σ ε α : Type) := StateT σ (Except ε) α

namespace Process

variable {σ ε ε' α β : Type}

/-- Stop with an error unless the condition holds. -/
def ensure (condition : Prop) [Decidable condition] (error : ε) : Process σ ε Unit :=
  fun s => if condition then .ok ((), s) else .error error

/-- A computation that does not look at the state. -/
def embed (x : Except ε α) : Process σ ε α := fun s => x.map (·, s)

/-- The same steps, under other errors. -/
def mapError (convert : ε → ε') (x : Process σ ε α) : Process σ ε' α :=
  fun s => (x s).mapError convert

/-- Run a process a fixed number of times, collecting its results in order. -/
def times : Nat → Process σ ε α → Process σ ε (List α)
  | 0, _ => pure []
  | count + 1, p => do
      let x ← p
      let xs ← times count p
      pure (x :: xs)

/-- Run a process for each item of a list, collecting its results in order. -/
def each (p : α → Process σ ε β) : List α → Process σ ε (List β)
  | [] => pure []
  | item :: rest => do
      let x ← p item
      let xs ← each p rest
      pure (x :: xs)

theorem bind_eq_ok {x : Process σ ε α} {f : α → Process σ ε β} {s t : σ} {b : β} :
    (x >>= f) s = .ok (b, t) ↔ ∃ a mid, x s = .ok (a, mid) ∧ f a mid = .ok (b, t) := by
  show ((x s) >>= fun result => f result.1 result.2) = .ok (b, t) ↔ _
  rw [Checked.bind_eq_ok]
  simp only [Prod.exists]

theorem pure_eq_ok {a b : α} {s t : σ} :
    (pure a : Process σ ε α) s = .ok (b, t) ↔ a = b ∧ s = t := by
  show Except.ok (a, s) = Except.ok (b, t) ↔ _
  rw [Except.ok.injEq, Prod.mk.injEq]

theorem embed_eq_ok {x : Except ε α} {s t : σ} {a : α} :
    (embed x : Process σ ε α) s = .ok (a, t) ↔ x = .ok a ∧ s = t := by
  cases x with
  | error e => simp [embed, Except.map]
  | ok value => simp [embed, Except.map]

theorem mapError_eq_ok {x : Process σ ε α} {convert : ε → ε'} {s t : σ} {a : α} :
    mapError convert x s = .ok (a, t) ↔ x s = .ok (a, t) :=
  Checked.mapError_eq_ok

theorem ensure_eq_ok {condition : Prop} [Decidable condition] {error : ε} {s t : σ} {u : Unit} :
    (ensure condition error : Process σ ε Unit) s = .ok (u, t) ↔ condition ∧ s = t := by
  unfold ensure
  split <;> simp [*]

/-- A result that was reached was reached in some state. -/
theorem exists_state {x : Process σ ε α} {s : σ} {a : α} (reached : (x s).map Prod.fst = .ok a) :
    ∃ t, x s = .ok (a, t) := by
  cases ran : x s with
  | error e => simp [ran, Except.map] at reached
  | ok result =>
      obtain ⟨value, t⟩ := result
      simp only [ran, Except.map, Except.ok.injEq] at reached
      exact ⟨t, by rw [← reached]⟩

theorem bind_eq_error {x : Process σ ε α} {f : α → Process σ ε β} {s : σ} {e : ε} :
    (x >>= f) s = .error e ↔ x s = .error e ∨ ∃ a mid, x s = .ok (a, mid) ∧ f a mid = .error e := by
  show ((x s) >>= fun result => f result.1 result.2) = .error e ↔ _
  cases x s with
  | error e' => simp [bind, Except.bind]
  | ok result => simp [bind, Except.bind, Prod.ext_iff]

theorem pure_ne_error {a : α} {s : σ} {e : ε} : (pure a : Process σ ε α) s ≠ .error e := nofun

theorem embed_eq_error {x : Except ε α} {s : σ} {e : ε} :
    (embed x : Process σ ε α) s = .error e ↔ x = .error e := by
  cases x with
  | error e' => simp [embed, Except.map]
  | ok value => simp [embed, Except.map]

theorem ensure_eq_error {condition : Prop} [Decidable condition] {error : ε} {s : σ} {e : ε} :
    (ensure condition error : Process σ ε Unit) s = .error e ↔ ¬ condition ∧ error = e := by
  unfold ensure
  split <;> simp [*]

theorem mapError_eq_error {x : Process σ ε α} {convert : ε → ε'} {s : σ} {e : ε'} :
    mapError convert x s = .error e ↔ ∃ cause, x s = .error cause ∧ convert cause = e :=
  Checked.mapError_eq_error

/-- A run over a list fails where one of its items does. -/
theorem error_of_each {p : α → Process σ ε β} {items : List α} {s : σ} {e : ε} (failed : each p items s = .error e) :
    ∃ item ∈ items, ∃ s, p item s = .error e := by
  induction items generalizing s with
  | nil => exact absurd failed pure_ne_error
  | cons item rest ih =>
      simp only [each, bind_eq_error, pure_ne_error, and_false, exists_false, or_false] at failed
      cases failed with
      | inl here => exact ⟨item, List.mem_cons_self, s, here⟩
      | inr later =>
          obtain ⟨_, mid, -, there⟩ := later
          obtain ⟨other, inside, failing⟩ := ih there
          exact ⟨other, List.mem_cons_of_mem _ inside, failing⟩

/-- Each item went through the process, in order. -/
theorem each_forall₂ {p : α → Process σ ε β} {items : List α} {results : List β} {s t : σ}
    (ran : each p items s = .ok (results, t)) {R : α → β → Prop}
    (related : ∀ a s b t, p a s = .ok (b, t) → R a b) : List.Forall₂ R items results := by
  induction items generalizing results s t with
  | nil =>
      obtain ⟨rfl, -⟩ := pure_eq_ok.mp ran
      exact .nil
  | cons item rest ih =>
      obtain ⟨first, mid, here, ran⟩ := bind_eq_ok.mp ran
      obtain ⟨later, mid', there, ran⟩ := bind_eq_ok.mp ran
      obtain ⟨rfl, -⟩ := pure_eq_ok.mp ran
      exact .cons (related _ _ _ _ here) (ih there)

/-- Related lists are related in both directions. -/
theorem forall₂_mem {R : α → β → Prop} {items : List α} {results : List β} (pairs : List.Forall₂ R items results) :
    (∀ item ∈ items, ∃ result ∈ results, R item result) ∧
      ∀ result ∈ results, ∃ item ∈ items, R item result := by
  induction pairs with
  | nil => exact ⟨List.forall_mem_nil _, List.forall_mem_nil _⟩
  | cons here _ ih =>
      constructor
      · refine List.forall_mem_cons.mpr ⟨⟨_, List.mem_cons_self, here⟩, fun other inside => ?_⟩
        obtain ⟨result, member, relation⟩ := ih.1 other inside
        exact ⟨result, List.mem_cons_of_mem _ member, relation⟩
      · refine List.forall_mem_cons.mpr ⟨⟨_, List.mem_cons_self, here⟩, fun other inside => ?_⟩
        obtain ⟨source, member, relation⟩ := ih.2 other inside
        exact ⟨source, List.mem_cons_of_mem _ member, relation⟩

/-- Each item went through the process, and each result came from one. -/
theorem each_related {p : α → Process σ ε β} {items : List α} {results : List β} {s t : σ}
    (ran : each p items s = .ok (results, t)) {R : α → β → Prop}
    (related : ∀ a s b t, p a s = .ok (b, t) → R a b) :
    (∀ item ∈ items, ∃ result ∈ results, R item result) ∧
      ∀ result ∈ results, ∃ item ∈ items, R item result :=
  forall₂_mem (each_forall₂ ran related)

end Process

end Blindplane.Lib
