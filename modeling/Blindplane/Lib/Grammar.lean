import Blindplane.Lib.Process
import Mathlib.Data.List.Basic

/-! # Grammars of sequential parsers

A parser that reads forward over a fixed input is described by a relation between
its results and the words it passes over, together with a bound on the errors it
can raise. The description is exact: the parser succeeds at a position if and only
if one of the related words lies there. Descriptions compose along `do` blocks, so
the grammar of a whole format is computed from the grammars of its fields.
-/

namespace Blindplane.Lib

/-- Positions of an input, and the words that lie between two positions. -/
structure Tape (σ β : Type) where
  Valid : σ → Prop
  Passes : σ → List β → σ → Prop
  valid : ∀ {s w s'}, Passes s w s' → Valid s'
  nil_iff : ∀ {s s'}, Valid s → (Passes s [] s' ↔ s' = s)
  append_iff : ∀ {s u v s'}, Passes s (u ++ v) s' ↔ ∃ mid, Passes s u mid ∧ Passes mid v s'

/-- From every valid position, `p` succeeds exactly on the words `R` relates to its
    result, and stops with errors in `tolerated` only. -/
structure Accepts {σ β ε α : Type} (tape : Tape σ β) (tolerated : ε → Prop) (p : Process σ ε α)
    (R : α → List β → Prop) : Prop where
  ok_iff : ∀ {s}, tape.Valid s → ∀ a s',
    p.run s = .ok (a, s') ↔ ∃ w, R a w ∧ tape.Passes s w s'
  error : ∀ {s}, tape.Valid s → ∀ e, p.run s = .error e → tolerated e

/-- The relation of an encoder restricted to the values it may be given. -/
def Encodes {α β : Type} (enc : α → List β) (ok : α → Prop) (a : α) (w : List β) : Prop :=
  ok a ∧ w = enc a

namespace Accepts

variable {σ β ε α γ : Type} {tape : Tape σ β} {tolerated : ε → Prop}

theorem congr {p : Process σ ε α} {R S : α → List β → Prop} (accepts : Accepts tape tolerated p R)
    (same : ∀ a w, R a w ↔ S a w) : Accepts tape tolerated p S where
  ok_iff valid a s' := by simp only [accepts.ok_iff valid, same]
  error := accepts.error

theorem pure (a : α) :
    Accepts tape tolerated (Pure.pure a : Process σ ε α) (fun b w => b = a ∧ w = []) where
  ok_iff {s} valid b s' := by
    change Except.ok (a, s) = Except.ok (b, s') ↔ _
    simp only [Except.ok.injEq, Prod.mk.injEq]
    constructor
    · rintro ⟨rfl, rfl⟩
      exact ⟨[], ⟨rfl, rfl⟩, (tape.nil_iff valid).mpr rfl⟩
    · rintro ⟨_, ⟨rfl, rfl⟩, passes⟩
      exact ⟨rfl, ((tape.nil_iff valid).mp passes).symm⟩
  error _ _ failed := nomatch failed

theorem ensure {condition : Prop} [Decidable condition] {error : ε} (allowed : ¬ condition → tolerated error) :
    Accepts tape tolerated (Process.ensure condition error : Process σ ε Unit)
      (fun _ w => condition ∧ w = []) := by
  by_cases holds : condition
  · have passed : (Process.ensure condition error : Process σ ε Unit) = Pure.pure () := by
      funext s
      exact if_pos holds
    rw [passed]
    exact (Accepts.pure ()).congr (fun _ _ => by simp [holds])
  · have stopped : ∀ s : σ, (Process.ensure condition error).run s = .error error :=
      fun s => if_neg holds
    exact
      { ok_iff := fun _ _ _ => by simp [stopped, holds]
        error := fun _ e failed => by
          obtain rfl : error = e := by simpa [stopped] using failed
          exact allowed holds }

theorem embed {x : Except ε α} (errors : ∀ e, x = .error e → tolerated e) :
    Accepts tape tolerated (Process.embed x : Process σ ε α) (fun a w => x = .ok a ∧ w = []) := by
  cases x with
  | ok a => exact (Accepts.pure a).congr fun b w => by simp [eq_comm]
  | error e =>
      exact
        { ok_iff := fun _ _ _ => by simp [Process.embed, StateT.run, Except.map]
          error := fun _ e' failed => by
            obtain rfl : e = e' := by simpa [Process.embed, StateT.run, Except.map] using failed
            exact errors e rfl }

/-- Two parsers in sequence pass over one word after the other. -/
theorem bind {p : Process σ ε α} {q : α → Process σ ε γ} {R : α → List β → Prop}
    {S : α → γ → List β → Prop} (first : Accepts tape tolerated p R)
    (second : ∀ a u, R a u → Accepts tape tolerated (q a) (S a)) :
    Accepts tape tolerated (p >>= q) (fun c w => ∃ a u v, R a u ∧ S a c v ∧ w = u ++ v) where
  ok_iff {s} valid c s' := by
    rw [StateT.run_bind]
    constructor
    · intro succeeded
      cases ran : p.run s with
      | error e => simp [ran, Bind.bind, Except.bind] at succeeded
      | ok result =>
          obtain ⟨a, mid⟩ := result
          obtain ⟨u, related, passes⟩ := (first.ok_iff valid _ _).mp ran
          have rest : (q a).run mid = .ok (c, s') := by
            simpa [ran, Bind.bind, Except.bind] using succeeded
          obtain ⟨v, related', passes'⟩ :=
            ((second a u related).ok_iff (tape.valid passes) _ _).mp rest
          exact ⟨u ++ v, ⟨a, u, v, related, related', rfl⟩,
            tape.append_iff.mpr ⟨mid, passes, passes'⟩⟩
    · rintro ⟨_, ⟨a, u, v, related, related', rfl⟩, passes⟩
      obtain ⟨mid, passes, passes'⟩ := tape.append_iff.mp passes
      have ran := (first.ok_iff valid _ _).mpr ⟨u, related, passes⟩
      have rest := ((second a u related).ok_iff (tape.valid passes) _ _).mpr ⟨v, related', passes'⟩
      simp [ran, rest, Bind.bind, Except.bind]
  error {s} valid e failed := by
    rw [StateT.run_bind] at failed
    cases ran : p.run s with
    | error e' =>
        obtain rfl : e' = e := by simpa [ran, Bind.bind, Except.bind] using failed
        exact first.error valid _ ran
    | ok result =>
        obtain ⟨a, mid⟩ := result
        obtain ⟨u, related, passes⟩ := (first.ok_iff valid _ _).mp ran
        exact (second a u related).error (tape.valid passes) _
          (by simpa [ran, Bind.bind, Except.bind] using failed)

/-- A condition checked before going on adds nothing to the word. -/
theorem guard {condition : Prop} [Decidable condition] {error : ε} {q : Process σ ε γ}
    {S : γ → List β → Prop} (allowed : ¬ condition → tolerated error) (rest : Accepts tape tolerated q S) :
    Accepts tape tolerated (Process.ensure condition error >>= fun _ => q)
      (fun c w => condition ∧ S c w) := by
  refine ((Accepts.ensure allowed).bind fun _ _ _ => rest).congr fun c w => ?_
  constructor
  · rintro ⟨_, u, v, ⟨holds, rfl⟩, related, rfl⟩
    exact ⟨holds, related⟩
  · rintro ⟨holds, related⟩
    exact ⟨(), [], w, ⟨holds, rfl⟩, related, rfl⟩

/-- A computation on what was read so far, whose value the rest may use. -/
theorem compute {x : Except ε α} {q : α → Process σ ε γ} {S : α → γ → List β → Prop}
    (errors : ∀ e, x = .error e → tolerated e)
    (rest : ∀ a, x = .ok a → Accepts tape tolerated (q a) (S a)) :
    Accepts tape tolerated (Process.embed x >>= q) (fun c w => ∃ a, x = .ok a ∧ S a c w) := by
  refine ((Accepts.embed errors).bind fun a _ related => rest a related.1).congr fun c w => ?_
  constructor
  · rintro ⟨a, _, v, ⟨value, rfl⟩, related, rfl⟩
    exact ⟨a, value, related⟩
  · rintro ⟨a, value, related⟩
    exact ⟨a, [], w, ⟨value, rfl⟩, related, rfl⟩

/-- An encoded field, followed by a parser that may use its value. -/
theorem field {enc : α → List β} {ok : α → Prop} {p : Process σ ε α} {q : α → Process σ ε γ}
    {S : α → γ → List β → Prop} (first : Accepts tape tolerated p (Encodes enc ok))
    (second : ∀ a, ok a → Accepts tape tolerated (q a) (S a)) :
    Accepts tape tolerated (p >>= q) (fun c w => ∃ a, ok a ∧ ∃ v, S a c v ∧ w = enc a ++ v) := by
  refine (first.bind fun a _ related => second a related.1).congr fun c w => ?_
  constructor
  · rintro ⟨a, _, v, ⟨holds, rfl⟩, related, rfl⟩
    exact ⟨a, holds, v, related, rfl⟩
  · rintro ⟨a, holds, v, related, rfl⟩
    exact ⟨a, enc a, v, ⟨holds, rfl⟩, related, rfl⟩

theorem times {enc : α → List β} {ok : α → Prop} {p : Process σ ε α}
    (item : Accepts tape tolerated p (Encodes enc ok)) (count : Nat) :
    Accepts tape tolerated (Process.times count p)
      (fun xs w => xs.length = count ∧ (∀ x ∈ xs, ok x) ∧ w = xs.flatMap enc) := by
  induction count with
  | zero =>
      refine (Accepts.pure []).congr fun xs w => ?_
      constructor
      · rintro ⟨rfl, rfl⟩
        exact ⟨rfl, by simp, rfl⟩
      · rintro ⟨empty, _, rfl⟩
        obtain rfl := List.length_eq_zero_iff.mp empty
        exact ⟨rfl, rfl⟩
  | succ count ih =>
      refine (item.field fun x _ => ih.bind fun xs _ _ => Accepts.pure (x :: xs)).congr fun xs w => ?_
      constructor
      · rintro ⟨x, holds, _, ⟨rest, _, _, ⟨rfl, all, rfl⟩, ⟨rfl, rfl⟩, rfl⟩, rfl⟩
        exact ⟨rfl, List.forall_mem_cons.mpr ⟨holds, all⟩, by simp⟩
      · rintro ⟨length, all, rfl⟩
        cases xs with
        | nil => simp at length
        | cons x rest =>
            obtain ⟨holds, all⟩ := List.forall_mem_cons.mp all
            exact ⟨x, holds, rest.flatMap enc,
              ⟨rest, rest.flatMap enc, [], ⟨Nat.succ.inj length, all, rfl⟩, ⟨rfl, rfl⟩, by simp⟩,
              List.flatMap_cons⟩

end Accepts

end Blindplane.Lib
