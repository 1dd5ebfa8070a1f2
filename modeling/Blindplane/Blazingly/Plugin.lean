import Blindplane.Blazingly.History

/-! # The plugin

The routes as the framework serves them. A model puts bounds on the length of its texts; the
framework checks them before it calls the route, and answers a call out of bounds by itself.
How it measures a text, by bytes or by characters, is its own affair and a parameter here.
-/

namespace Blindplane.Blazingly

open Lib Lib.Utf8 Lib.Checked Lib.Machine Crypto Wire Relay

/-- A text of a request, with the `min_length` and the `max_length` of its field. -/
structure BoundedText where
  minLength : Nat
  maxLength : Option Nat
  text : Bytes
  deriving DecidableEq, Repr

namespace BoundedText

/-- The text is as long as its field allows. -/
def Fits (measure : Bytes → Nat) (bounded : BoundedText) : Prop :=
  bounded.minLength ≤ measure bounded.text ∧ ∀ most ∈ bounded.maxLength, measure bounded.text ≤ most

instance (measure : Bytes → Nat) (bounded : BoundedText) : Decidable (bounded.Fits measure) :=
  inferInstanceAs (Decidable (_ ∧ _))

/-- Every field that names something has the same bounds. -/
def name (text : String) : BoundedText where
  minLength := 1
  maxLength := some 255
  text := asBytes text

end BoundedText

def StoreRequest.texts (input : StoreRequest) : List BoundedText :=
  [.name input.tenant, .name input.objectId, .name input.field,
    { minLength := 1, maxLength := none, text := input.record }]

def FetchRequest.texts (input : FetchRequest) : List BoundedText :=
  [.name input.tenant, .name input.objectId, .name input.field]

def SearchRequest.texts (input : SearchRequest) : List BoundedText :=
  [.name input.tenant, .name input.label, { minLength := 32, maxLength := some 32, text := input.token }]

def Call.texts : Call → List BoundedText
  | health => []
  | storeRecord input => input.texts
  | fetchRecord input => input.texts
  | searchRecords input => input.texts

/-- Every text of the call is within its bounds. -/
def Call.Valid (measure : Bytes → Nat) (call : Call) : Prop := ∀ bounded ∈ call.texts, bounded.Fits measure

instance (measure : Bytes → Nat) (call : Call) : Decidable (call.Valid measure) :=
  inferInstanceAs (Decidable (∀ bounded ∈ call.texts, bounded.Fits measure))

/-- What the framework answers: by itself, with status 422, or what the route replied. -/
inductive Answer where
  | invalid
  | replied (reply : Reply)

/-- The answer reports an error. -/
def Answer.Refused : Answer → Prop
  | invalid => True
  | replied reply => reply.error?.isSome

abbrev PluginEvent := Event StoreInner Call Answer

/-- The event as the route of its call has it, if the call got there. -/
def routed (event : PluginEvent) : Option CallEvent :=
  match event.output with
  | .invalid => none
  | .replied reply => some { before := event.before, input := event.input, output := reply, after := event.after }

/-- The framework in front of the routes. -/
def contract (measure : Bytes → Nat) : Front Call Call Reply Answer where
  forward call := if call.Valid measure then .inr call else .inl .invalid
  answer := .replied

section Plugin

variable [Primitives]

/-- Answer one call, once its texts are checked. -/
def plugin (measure : Bytes → Nat) (policy : ValidationPolicy) (store : StoreInner) (call : Call) : Answer × StoreInner :=
  if call.Valid measure then (.replied (handle policy store call).1, (handle policy store call).2)
  else (.invalid, store)

variable {measure : Bytes → Nat} {policy : ValidationPolicy}

theorem plugin_valid {store : StoreInner} {call : Call} (valid : call.Valid measure) :
    plugin measure policy store call = (.replied (handle policy store call).1, (handle policy store call).2) :=
  if_pos valid

theorem plugin_invalid {store : StoreInner} {call : Call} (invalid : ¬ call.Valid measure) :
    plugin measure policy store call = (.invalid, store) :=
  if_neg invalid

theorem plugin_eq_serve : plugin measure policy = (contract measure).serve (handle policy) := by
  funext store call
  by_cases valid : call.Valid measure
  · simp only [plugin_valid valid, Front.serve, contract, if_pos valid]
  · simp only [plugin_invalid valid, Front.serve, contract, if_neg valid]

omit [Primitives] in
theorem passed_contract (calls : List Call) :
    calls.filterMap (contract measure).passed = calls.filter (·.Valid measure) := by
  have passed : (contract measure).passed = Option.guard (·.Valid measure) := by
    funext call
    by_cases valid : call.Valid measure <;> simp [Front.passed, contract, Option.guard, valid]
  rw [passed, List.filterMap_eq_filter]

theorem routed_eq_behind {event : PluginEvent} (taken : (event.output, event.after) = plugin measure policy event.before event.input) :
    routed event = (contract measure).behind (handle policy) event := by
  by_cases valid : event.input.Valid measure
  · rw [plugin_valid valid] at taken
    obtain ⟨replied, left⟩ := Prod.mk.inj taken
    simp only [routed, replied, left, Front.behind, Front.passed, contract, if_pos valid, Sum.getRight?_inr, Option.map_some]
  · rw [plugin_invalid valid] at taken
    simp only [routed, (Prod.mk.inj taken).1, Front.behind, Front.passed, contract, if_neg valid, Sum.getRight?_inl,
      Option.map_none]

/-- A run behind the framework is a run of the routes on the calls within bounds. -/
theorem final_plugin (measure : Bytes → Nat) (policy : ValidationPolicy) (calls : List Call) :
    final (plugin measure policy) StoreInner.empty calls =
      final (handle policy) StoreInner.empty (calls.filter (·.Valid measure)) := by
  rw [plugin_eq_serve, Front.final_serve, passed_contract]

theorem trace_plugin (measure : Bytes → Nat) (policy : ValidationPolicy) (calls : List Call) :
    (trace (plugin measure policy) StoreInner.empty calls).filterMap routed =
      trace (handle policy) StoreInner.empty (calls.filter (·.Valid measure)) := by
  rw [List.filterMap_congr fun event member => routed_eq_behind (trace_step member), plugin_eq_serve, Front.trace_serve,
    passed_contract]

end Plugin

section Runs

variable [Primitives] {measure : Bytes → Nat} {policy : ValidationPolicy} {calls : List Call}

theorem output_invalid_iff {event : PluginEvent} (member : event ∈ trace (plugin measure policy) StoreInner.empty calls) :
    event.output = .invalid ↔ ¬ event.input.Valid measure := by
  have replied : event.output = (plugin measure policy event.before event.input).1 := congrArg Prod.fst (trace_step member)
  by_cases valid : event.input.Valid measure
  · rw [replied, plugin_valid valid]
    exact iff_of_false (fun refused => by cases refused) (not_not.mpr valid)
  · rw [replied, plugin_invalid valid]
    exact iff_of_true rfl valid

/-- Where a call within bounds splits a run, it splits the run of the routes. -/
theorem plugin_split {past rest : List PluginEvent} {event : PluginEvent}
    (split : trace (plugin measure policy) StoreInner.empty calls = past ++ event :: rest) (valid : event.input.Valid measure) :
    ∃ reply, event.output = .replied reply ∧
      trace (handle policy) StoreInner.empty (calls.filter (·.Valid measure)) =
        past.filterMap routed ++ ⟨event.before, event.input, reply, event.after⟩ :: rest.filterMap routed := by
  have member : event ∈ trace (plugin measure policy) StoreInner.empty calls := by simp [split]
  cases replied : event.output with
  | invalid => exact absurd valid ((output_invalid_iff member).mp replied)
  | replied reply =>
      refine ⟨reply, rfl, ?_⟩
      have here : routed event = some ⟨event.before, event.input, reply, event.after⟩ := by rw [routed, replied]
      rw [← trace_plugin, split, List.filterMap_append, List.filterMap_cons_some here]

theorem plugin_refused {store : StoreInner} {call : Call} (refused : (plugin measure policy store call).1.Refused) :
    (plugin measure policy store call).2 = store := by
  by_cases valid : call.Valid measure
  · rw [plugin_valid valid] at refused ⊢
    exact handle_refused refused
  · rw [plugin_invalid valid]

/-- Every write of a run is judged against the last accepted text of its key, once its texts
    are within their bounds; a refused call changes nothing, and what is accepted for one key
    only grows in rank. -/
theorem writes_follow_history (measure : Bytes → Nat) (policy : ValidationPolicy) (calls : List Call) :
    let run := trace (plugin measure policy) StoreInner.empty calls
    (∀ event ∈ run, event.output = .invalid ↔ ¬ event.input.Valid measure) ∧
    (∀ past event rest input, run = past ++ event :: rest → event.input = .storeRecord input → event.input.Valid measure →
      ∃ result, event.output = .replied (.stored result) ∧
        StoreLaw policy (current input.key (past.filterMap routed)) input result) ∧
    (∀ event ∈ run, event.output.Refused → event.after = event.before) ∧
    ∀ key, ((run.filterMap routed).filterMap fun event => (storedText key event).bind base64Decode).Pairwise
      (Supersedes policy) := by
  intro run
  obtain ⟨judged, -, growing⟩ := writes_judged policy (calls.filter (·.Valid measure))
  refine ⟨fun event member => output_invalid_iff member, fun past event rest input split asked valid => ?_,
    fun event member refused => ?_, fun key => ?_⟩
  · obtain ⟨reply, replied, behind⟩ := plugin_split split valid
    obtain ⟨result, stored, law⟩ := judged _ _ _ input behind asked
    exact ⟨result, by rw [replied, ← stored], law⟩
  · have taken := trace_step member
    have replied : event.output = (plugin measure policy event.before event.input).1 := congrArg Prod.fst taken
    have left : event.after = (plugin measure policy event.before event.input).2 := congrArg Prod.snd taken
    rw [left]
    exact plugin_refused (replied ▸ refused)
  · rw [trace_plugin]
    exact growing key

/-- Every read of a run within its bounds answers from the last accepted texts: a fetch
    returns the very text that was stored where this was in standard form, and a lookup
    returns, in key order, the records that carry its token. -/
theorem reads_follow_history (measure : Bytes → Nat) (policy : ValidationPolicy) (calls : List Call) :
    let run := trace (plugin measure policy) StoreInner.empty calls
    (∀ event ∈ run, event.output = .invalid ↔ ¬ event.input.Valid measure) ∧
    (∀ past event rest input, run = past ++ event :: rest → event.input = .fetchRecord input → event.input.Valid measure →
      event.output = .replied (.fetched ((okOr (current input.key (past.filterMap routed)) .notFound).map
        fun encoded => ⟨base64Encode encoded⟩)) ∧
        ∀ text, lastText input.key (past.filterMap routed) = some text → Standard (chunks 4 text) →
          event.output = .replied (.fetched (.ok ⟨text⟩))) ∧
    ∀ past event rest input, run = past ++ event :: rest → event.input = .searchRecords input → event.input.Valid measure →
      ∃ result, event.output = .replied (.found result) ∧
        SearchLaw policy (fun key => current key (past.filterMap routed)) input result := by
  intro run
  obtain ⟨fetches, searches⟩ := reads_answered policy (calls.filter (·.Valid measure))
  refine ⟨fun event member => output_invalid_iff member, fun past event rest input split asked valid => ?_,
    fun past event rest input split asked valid => ?_⟩
  · obtain ⟨reply, replied, behind⟩ := plugin_split split valid
    obtain ⟨fetched, verbatim⟩ := fetches _ _ _ input behind asked
    rw [replied]
    exact ⟨congrArg Answer.replied fetched, fun text last standard => congrArg Answer.replied (verbatim text last standard)⟩
  · obtain ⟨reply, replied, behind⟩ := plugin_split split valid
    obtain ⟨result, found, law⟩ := searches _ _ _ input behind asked
    exact ⟨result, by rw [replied, ← found], law⟩

end Runs

end Blindplane.Blazingly
