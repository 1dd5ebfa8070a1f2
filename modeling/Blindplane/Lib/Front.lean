import Blindplane.Lib.Machine

/-! # A machine in front of another

A front answers some calls on its own and turns the others into inputs of the machine
behind it, whose answers it rewrites. A run of the front is a run of the machine behind on
the inputs that got through; the other calls show in no state.
-/

namespace Blindplane.Lib.Machine

variable {σ κ ι ρ β : Type*}

structure Front (κ ι ρ β : Type*) where
  /-- The front's own reply, or the input it makes of the call. -/
  forward : κ → β ⊕ ι
  answer : ρ → β

namespace Front

variable (front : Front κ ι ρ β) (step : σ → ι → ρ × σ)

/-- One call, answered by the front or by the machine behind it. -/
def serve (s : σ) (call : κ) : β × σ :=
  match front.forward call with
  | .inl reply => (reply, s)
  | .inr input => (front.answer (step s input).1, (step s input).2)

/-- The input that a call becomes, if it gets through. -/
def passed (call : κ) : Option ι := (front.forward call).getRight?

/-- The event that a call is for the machine behind. -/
def behind (event : Event σ κ β) : Option (Event σ ι ρ) :=
  (front.passed event.input).map fun input =>
    ⟨event.before, input, (step event.before input).1, (step event.before input).2⟩

variable {front step}

theorem final_serve (s : σ) (calls : List κ) :
    final (front.serve step) s calls = final step s (calls.filterMap front.passed) := by
  induction calls generalizing s with
  | nil => rfl
  | cons call rest ih =>
      rw [final_cons, ih, List.filterMap_cons]
      cases forwarded : front.forward call with
      | inl reply => simp only [serve, passed, forwarded, Sum.getRight?_inl]
      | inr input => simp only [serve, passed, forwarded, Sum.getRight?_inr, final_cons]

theorem trace_serve (s : σ) (calls : List κ) :
    (trace (front.serve step) s calls).filterMap (front.behind step) =
      trace step s (calls.filterMap front.passed) := by
  induction calls generalizing s with
  | nil => rfl
  | cons call rest ih =>
      rw [trace_cons, List.filterMap_cons, ih, List.filterMap_cons]
      cases forwarded : front.forward call with
      | inl reply => simp only [serve, behind, passed, forwarded, Sum.getRight?_inl, Option.map_none]
      | inr input =>
          simp only [serve, behind, passed, forwarded, Sum.getRight?_inr, Option.map_some, trace_cons]

section Twins

variable {κ' β' : Type*} (front) (other : Front κ' ι ρ β') (twin : κ → κ') (agrees : β → β' → Prop)

/-- Two fronts make the same input of corresponding calls, and corresponding replies of the
    same answer. -/
structure Twins : Prop where
  forwarded : ∀ call, Sum.LiftRel agrees Eq (front.forward call) (other.forward (twin call))
  answered : ∀ response, agrees (front.answer response) (other.answer response)

variable {front other twin agrees}

theorem Twins.serve (twins : Twins front other twin agrees) (step : σ → ι → ρ × σ) (s : σ) (call : κ) :
    agrees (front.serve step s call).1 (other.serve step s (twin call)).1 ∧
      (other.serve step s (twin call)).2 = (front.serve step s call).2 := by
  have forwarded := twins.forwarded call
  simp only [Front.serve]
  cases own : front.forward call with
  | inl reply =>
      cases others : other.forward (twin call) with
      | inl reply' =>
          rw [own, others, Sum.liftRel_inl_inl] at forwarded
          exact ⟨forwarded, rfl⟩
      | inr input =>
          rw [own, others] at forwarded
          cases forwarded
  | inr input =>
      cases others : other.forward (twin call) with
      | inl reply =>
          rw [own, others] at forwarded
          cases forwarded
      | inr input' =>
          rw [own, others, Sum.liftRel_inr_inr] at forwarded
          subst forwarded
          exact ⟨twins.answered _, rfl⟩

theorem Twins.final_eq (twins : Twins front other twin agrees) (s : σ) (calls : List κ) :
    final (other.serve step) s (calls.map twin) = final (front.serve step) s calls := by
  induction calls generalizing s with
  | nil => rfl
  | cons call rest ih => rw [List.map_cons, final_cons, final_cons, (twins.serve step s call).2, ih]

/-- Corresponding runs go through the same states, with corresponding replies. -/
theorem Twins.trace_forall₂ (twins : Twins front other twin agrees) (s : σ) (calls : List κ) :
    List.Forall₂ (fun event event' => agrees event.output event'.output ∧ event'.before = event.before)
      (trace (front.serve step) s calls) (trace (other.serve step) s (calls.map twin)) := by
  induction calls generalizing s with
  | nil => exact .nil
  | cons call rest ih =>
      obtain ⟨replies, states⟩ := twins.serve step s call
      rw [List.map_cons, trace_cons, trace_cons, states]
      exact .cons ⟨replies, rfl⟩ (ih _)

end Twins

end Front

end Blindplane.Lib.Machine
