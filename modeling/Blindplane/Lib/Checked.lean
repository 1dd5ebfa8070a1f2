import Mathlib.Data.List.Basic

/-! # Sequences of checks that stop at the first failure -/

namespace Blindplane.Lib.Checked

variable {ε ε' α β : Type}

/-- What a computation panics at: an index, a sum or an `expect` of its own that fails, or a
    vector whose memory is refused. -/
inductive Panic where
  | internal
  | capacity
  deriving DecidableEq, Repr

/-- How a computation ends early: an error it returns, or a panic. -/
inductive Fault (ε : Type) where
  | error (e : ε)
  | panic (site : Panic)
  deriving DecidableEq, Repr

def Fault.map (convert : ε → ε') : Fault ε → Fault ε'
  | .error e => .error (convert e)
  | .panic site => .panic site

/-- Fail with `error` when the condition holds. -/
def rejectIf (condition : Prop) [Decidable condition] (error : ε) : Except ε Unit :=
  if condition then .error error else .ok ()

/-- The value, or `error` when there is none. -/
def okOr (value : Option α) (error : ε) : Except ε α :=
  match value with
  | some a => .ok a
  | none => .error error

@[simp] theorem rejectIf_eq_ok {condition : Prop} [Decidable condition] {error : ε} {u : Unit} :
    rejectIf condition error = .ok u ↔ ¬ condition := by
  unfold rejectIf
  split <;> simp [*]

@[simp] theorem okOr_eq_ok {value : Option α} {error : ε} {a : α} :
    okOr value error = .ok a ↔ value = some a := by
  cases value <;> simp [okOr]

@[simp] theorem bind_eq_ok {x : Except ε α} {f : α → Except ε β} {b : β} :
    (x >>= f) = .ok b ↔ ∃ a, x = .ok a ∧ f a = .ok b := by
  cases x <;> simp [bind, Except.bind]

@[simp] theorem pure_eq_ok {a b : α} : (pure a : Except ε α) = .ok b ↔ a = b := by
  simp [pure, Except.pure]

theorem ok_bind {a : α} {f : α → Except ε β} : ((.ok a : Except ε α) >>= f) = f a := rfl

theorem error_bind {e : ε} {f : α → Except ε β} : ((.error e : Except ε α) >>= f) = .error e := rfl

theorem okOr_none_bind {error : ε} {f : α → Except ε β} : (okOr none error >>= f) = .error error := rfl

theorem okOr_some_bind {error : ε} {a : α} {f : α → Except ε β} : (okOr (some a) error >>= f) = f a := rfl

theorem rejectIf_bind_of {condition : Prop} [Decidable condition] (holds : condition) {error : ε}
    {f : Unit → Except ε α} : (rejectIf condition error >>= f) = .error error := by
  rw [rejectIf, if_pos holds]
  rfl

theorem rejectIf_bind_of_not {condition : Prop} [Decidable condition] (fails : ¬ condition) {error : ε}
    {f : Unit → Except ε α} : (rejectIf condition error >>= f) = f () := by
  rw [rejectIf, if_neg fails]
  rfl

/-- The results of a list are what its elements give. -/
theorem mem_mapM {f : α → Except ε β} {list : List α} {results : List β} (done : list.mapM f = .ok results) {b : β} :
    b ∈ results ↔ ∃ a ∈ list, f a = .ok b := by
  induction list generalizing results with
  | nil =>
      obtain rfl := pure_eq_ok.mp done
      simp
  | cons a rest ih =>
      rw [List.mapM_cons] at done
      obtain ⟨first, here, later⟩ := bind_eq_ok.mp done
      obtain ⟨others, there, joined⟩ := bind_eq_ok.mp later
      obtain rfl := pure_eq_ok.mp joined
      have same : b = first ↔ f a = .ok b := by rw [here, Except.ok.injEq, eq_comm]
      simp only [List.mem_cons, ih there, exists_eq_or_imp, same]

theorem mapError_ok {value : α} {convert : ε → ε'} :
    (Except.ok value).mapError convert = .ok value := rfl

theorem mapError_error {error : ε} {convert : ε → ε'} :
    (Except.error error : Except ε α).mapError convert = .error (convert error) := rfl

@[simp] theorem mapError_eq_ok {result : Except ε α} {convert : ε → ε'} {value : α} :
    result.mapError convert = .ok value ↔ result = .ok value := by
  cases result with
  | error e => simp only [mapError_error, reduceCtorEq]
  | ok a => simp only [mapError_ok, Except.ok.injEq]

theorem mapError_eq_error {result : Except ε α} {convert : ε → ε'} {error : ε'} :
    result.mapError convert = .error error ↔ ∃ cause, result = .error cause ∧ convert cause = error := by
  cases result with
  | error e => simp only [mapError_error, Except.error.injEq, exists_eq_left']
  | ok a => simp only [mapError_ok, reduceCtorEq, false_and, exists_false]

/-- The computation stops with errors in `tolerated` only. -/
def Raises (tolerated : ε → Prop) (result : Except ε α) : Prop :=
  ∀ e, result = .error e → tolerated e

namespace Raises

variable {tolerated : ε → Prop}

theorem ok (value : α) : Raises tolerated (.ok value) :=
  fun _ failed => nomatch failed

theorem rejectIf {condition : Prop} [Decidable condition] {error : ε} (allowed : tolerated error) :
    Raises tolerated (Checked.rejectIf condition error) := by
  intro e failed
  unfold Checked.rejectIf at failed
  split at failed
  · exact Except.error.inj failed ▸ allowed
  · cases failed

theorem okOr {value : Option α} {error : ε} (allowed : tolerated error) :
    Raises tolerated (Checked.okOr value error) := by
  intro e failed
  cases value with
  | some a => cases failed
  | none => exact Except.error.inj failed ▸ allowed

theorem bind {x : Except ε α} {f : α → Except ε β} (first : Raises tolerated x)
    (second : ∀ a, x = .ok a → Raises tolerated (f a)) : Raises tolerated (x >>= f) := by
  intro e failed
  cases x with
  | ok a => exact second a rfl e failed
  | error e' => exact first e (congrArg Except.error (Except.error.inj failed))

theorem pure (value : α) : Raises tolerated (Pure.pure value) :=
  fun _ failed => nomatch failed

theorem throw {e : ε} (allowed : tolerated e) : Raises tolerated (MonadExcept.throw e : Except ε α) := by
  intro e' failed
  cases failed
  exact allowed

theorem mapM {f : α → Except ε β} {list : List α} (each : ∀ a ∈ list, Raises tolerated (f a)) :
    Raises tolerated (list.mapM f) := by
  induction list with
  | nil => exact pure []
  | cons a rest ih =>
      obtain ⟨first, later⟩ := List.forall_mem_cons.mp each
      rw [List.mapM_cons]
      apply bind first
      intro b _
      apply bind (ih later)
      intro bs _
      exact pure (b :: bs)

theorem foldlM {f : β → α → Except ε β} (each : ∀ b a, Raises tolerated (f b a)) (list : List α) (b : β) :
    Raises tolerated (list.foldlM f b) := by
  induction list generalizing b with
  | nil => exact pure b
  | cons a rest ih =>
      rw [List.foldlM_cons]
      apply bind (each b a)
      intro b' _
      exact ih b'

theorem mapError {x : Except ε' α} {convert : ε' → ε}
    (allowed : ∀ e, x = .error e → tolerated (convert e)) :
    Raises tolerated (x.mapError convert) := by
  intro e failed
  cases x with
  | ok a => cases failed
  | error e' => exact Except.error.inj failed ▸ allowed e' rfl

end Raises

end Blindplane.Lib.Checked
