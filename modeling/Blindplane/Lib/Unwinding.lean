import Blindplane.Lib.Machine

/-! # Inputs that an observer cannot tell apart from nothing

An observer sees some inputs and their outputs. When the inputs it does not see leave the
state as good as before to it, and those it does see answer by what it can tell, then the
outputs it sees are those of a run without the others.
-/

namespace Blindplane.Lib.Machine

variable {σ ι ρ : Type*}

/-- One step, for two states that are alike to the observer. -/
structure Unwinding (step : σ → ι → ρ × σ) (seen : ι → Prop) (alike : σ → σ → Prop) : Prop where
  answers : ∀ {s t input}, alike s t → seen input → (step s input).1 = (step t input).1
  kept : ∀ {s t input}, alike s t → seen input → alike (step s input).2 (step t input).2
  hidden : ∀ {s t input}, alike s t → ¬ seen input → alike (step s input).2 t

namespace Unwinding

variable {step : σ → ι → ρ × σ} {seen : ι → Prop} [DecidablePred seen] {alike : σ → σ → Prop}

theorem final (unwinding : Unwinding step seen alike) {s t : σ} (same : alike s t) (inputs : List ι) :
    alike (Machine.final step s inputs) (Machine.final step t (inputs.filter seen)) := by
  induction inputs generalizing s t with
  | nil => exact same
  | cons input rest ih =>
      by_cases visible : seen input
      · rw [List.filter_cons_of_pos (by simpa using visible)]
        exact ih (unwinding.kept same visible)
      · rw [List.filter_cons_of_neg (by simpa using visible)]
        exact ih (unwinding.hidden same visible)

/-- What is seen of a run is what a run of the seen inputs alone gives. -/
theorem outputs (unwinding : Unwinding step seen alike) {s t : σ} (same : alike s t) (inputs : List ι) :
    ((trace step s inputs).filter fun event => seen event.input).map Event.output =
      (trace step t (inputs.filter seen)).map Event.output := by
  induction inputs generalizing s t with
  | nil => rfl
  | cons input rest ih =>
      by_cases visible : seen input
      · rw [trace_cons, List.filter_cons_of_pos (by simpa using visible), List.filter_cons_of_pos (by simpa using visible),
          trace_cons, List.map_cons, List.map_cons, ih (unwinding.kept same visible), unwinding.answers same visible]
      · rw [trace_cons, List.filter_cons_of_neg (by simpa using visible), List.filter_cons_of_neg (by simpa using visible),
          ih (unwinding.hidden same visible)]

end Unwinding

end Blindplane.Lib.Machine
