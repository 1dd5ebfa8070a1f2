import Mathlib.Data.List.Basic

/-! # Runs of a machine that answers its inputs

A machine takes one input at a time, answers it and moves on. A run is the sequence of
its events; what one step preserves holds along every run.
-/

namespace Blindplane.Lib.Machine

variable {σ ι ρ : Type*}

/-- One step as seen from outside. -/
structure Event (σ ι ρ : Type*) where
  before : σ
  input : ι
  output : ρ
  after : σ

variable (step : σ → ι → ρ × σ)

/-- The state a run ends in. -/
def final : σ → List ι → σ
  | s, [] => s
  | s, input :: rest => final (step s input).2 rest

/-- The events of a run, in order. -/
def trace : σ → List ι → List (Event σ ι ρ)
  | _, [] => []
  | s, input :: rest =>
      { before := s, input, output := (step s input).1, after := (step s input).2 } ::
        trace (step s input).2 rest

@[simp] theorem final_nil (s : σ) : final step s [] = s := rfl

@[simp] theorem final_cons (s : σ) (input : ι) (rest : List ι) :
    final step s (input :: rest) = final step (step s input).2 rest := rfl

@[simp] theorem trace_nil (s : σ) : trace step s [] = [] := rfl

@[simp] theorem trace_cons (s : σ) (input : ι) (rest : List ι) :
    trace step s (input :: rest) =
      { before := s, input, output := (step s input).1, after := (step s input).2 } ::
        trace step (step s input).2 rest := rfl

theorem final_append (s : σ) (first second : List ι) :
    final step s (first ++ second) = final step (final step s first) second := by
  induction first generalizing s with
  | nil => rfl
  | cons input rest ih => exact ih (step s input).2

theorem trace_append (s : σ) (first second : List ι) :
    trace step s (first ++ second) = trace step s first ++ trace step (final step s first) second := by
  induction first generalizing s with
  | nil => rfl
  | cons input rest ih => exact congrArg _ (ih (step s input).2)

variable {step}

/-- What every step keeps, every run keeps. -/
theorem final_invariant {inv : σ → Prop} {s : σ} {inputs : List ι} (initial : inv s)
    (preserved : ∀ s, inv s → ∀ input ∈ inputs, inv (step s input).2) :
    inv (final step s inputs) := by
  induction inputs generalizing s with
  | nil => exact initial
  | cons input rest ih =>
      exact ih (preserved s initial input List.mem_cons_self)
        fun s holds other member => preserved s holds other (List.mem_cons_of_mem _ member)

/-- Every event of a run is a step taken from a state the invariant holds of. -/
theorem trace_invariant {inv : σ → Prop} {s : σ} {inputs : List ι} (initial : inv s)
    (preserved : ∀ s, inv s → ∀ input ∈ inputs, inv (step s input).2) {event : Event σ ι ρ}
    (member : event ∈ trace step s inputs) :
    inv event.before ∧ event.input ∈ inputs ∧
      (event.output, event.after) = step event.before event.input := by
  induction inputs generalizing s with
  | nil => cases member
  | cons input rest ih =>
      rcases List.mem_cons.mp member with rfl | later
      · exact ⟨initial, List.mem_cons_self, rfl⟩
      · obtain ⟨holds, inside, taken⟩ := ih (preserved s initial input List.mem_cons_self)
          (fun s holds other member => preserved s holds other (List.mem_cons_of_mem _ member)) later
        exact ⟨holds, List.mem_cons_of_mem _ inside, taken⟩

/-- An event of a run is the step its state takes. -/
theorem trace_step {s : σ} {inputs : List ι} {event : Event σ ι ρ}
    (member : event ∈ trace step s inputs) :
    (event.output, event.after) = step event.before event.input :=
  have anywhere : ∀ s, True → ∀ input ∈ inputs, (fun _ : σ => True) (step s input).2 :=
    fun _ _ _ _ => trivial
  (trace_invariant trivial anywhere member).2.2

/-- What holds of the past and the state, and survives one more event, holds of a run. -/
theorem trace_history {inv : List (Event σ ι ρ) → σ → Prop} {s : σ} {past : List (Event σ ι ρ)}
    (initial : inv past s)
    (preserved : ∀ past s, inv past s → ∀ input,
      inv (past ++ [⟨s, input, (step s input).1, (step s input).2⟩]) (step s input).2)
    (inputs : List ι) : inv (past ++ trace step s inputs) (final step s inputs) := by
  induction inputs generalizing s past with
  | nil => rwa [trace_nil, List.append_nil]
  | cons input rest ih =>
      have later := ih (preserved past s initial input)
      rwa [List.append_assoc] at later

/-- An event of a run splits the run where it happened. -/
theorem trace_split {s : σ} {inputs : List ι} {past rest : List (Event σ ι ρ)} {event : Event σ ι ρ}
    (split : trace step s inputs = past ++ event :: rest) :
    ∃ before, past = trace step s before ∧ event.before = final step s before ∧
      (event.output, event.after) = step event.before event.input := by
  induction inputs generalizing s past with
  | nil => simp at split
  | cons input later ih =>
      cases past with
      | nil =>
          obtain ⟨rfl, -⟩ := List.cons.inj split
          exact ⟨[], rfl, rfl, rfl⟩
      | cons first past =>
          obtain ⟨rfl, later⟩ := List.cons.inj split
          obtain ⟨before, rfl, here, taken⟩ := ih later
          exact ⟨input :: before, rfl, here, taken⟩

end Blindplane.Lib.Machine
