import Blindplane.Blazingly.Routes

/-! # What the routes answer along a run

The replies of a run are determined by the texts that were stored before, and by nothing
else: a write is judged against the last accepted text of its key, a fetch returns that
text, and a lookup returns the last texts of the keys that carry the token. A call is one
that its route is given: what the framework refuses before it comes with the plugin.
-/

namespace Blindplane.Blazingly

open Lib Lib.Checked Lib.Machine Crypto Wire Relay

abbrev CallEvent := Event StoreInner Call Reply

/-- The text an event stored under a key, if it did. -/
def storedText (key : RecordKey) (event : CallEvent) : Option Bytes :=
  match event.input, event.output with
  | .storeRecord input, .stored (.ok _) => if input.key = key then some input.record else none
  | _, _ => none

/-- The text that was last stored under a key. -/
def lastText (key : RecordKey) (past : List CallEvent) : Option Bytes :=
  (past.filterMap (storedText key)).getLast?

/-- The bytes that were last stored under a key. -/
def current (key : RecordKey) (past : List CallEvent) : Option Bytes :=
  (lastText key past).bind base64Decode

section Behind

/-- Reading after the last value is found, where every value can be read. -/
private theorem getLast?_filterMap_bind {α β γ : Type} {f : α → Option β} {g : β → Option γ} {list : List α}
    (readable : ∀ a ∈ list, ∀ b, f a = some b → ∃ c, g b = some c) :
    (list.filterMap fun a => (f a).bind g).getLast? = (list.filterMap f).getLast?.bind g := by
  induction list using List.reverseRecOn with
  | nil => rfl
  | append_singleton front last ih =>
      have before := ih fun a member => readable a (List.mem_append_left _ member)
      simp only [List.filterMap_append, List.filterMap_cons, List.filterMap_nil]
      cases here : f last with
      | none => simpa only [Option.bind_none, List.append_nil] using before
      | some b =>
          obtain ⟨c, read⟩ := readable last (by simp) b here
          simp only [Option.bind_some, read, List.getLast?_append, List.getLast?_singleton, Option.some_or]

variable [Primitives]

/-- The relay behind the routes accepted what the routes stored. -/
theorem accepted_behind {policy : ValidationPolicy} {event : CallEvent} (key : RecordKey)
    (taken : (event.output, event.after) = handle policy event.before event.input) :
    (routes.behind (serveFor policy) event).bind (accepted key) = (storedText key event).bind base64Decode := by
  have replied : event.output = (handle policy event.before event.input).1 := congrArg Prod.fst taken
  simp only [Front.behind, Front.passed, storedText, replied, routes]
  cases event.input with
  | health => rfl
  | fetchRecord input => rfl
  | searchRecords input =>
      simp only [forward]
      cases input.readToken <;> rfl
  | storeRecord input =>
      simp only [forward, handle, storeRecord]
      cases read : base64Decode input.record with
      | none => rfl
      | some encoded =>
          simp only [Sum.getRight?_inr, Option.map_some, Option.bind_some, serveFor, serve, accepted]
          cases (putEncoded policy event.before input.key encoded).1 with
          | error e => rfl
          | ok receipt =>
              simp only [mapError_ok, Except.map]
              split <;> simp [read]

theorem stored_readable {policy : ValidationPolicy} {calls : List Call} {event : CallEvent}
    (member : event ∈ trace (handle policy) StoreInner.empty calls) {key : RecordKey} {text : Bytes}
    (stored : storedText key event = some text) : ∃ bytes, base64Decode text = some bytes := by
  have replied : event.output = (handle policy event.before event.input).1 :=
    congrArg Prod.fst (trace_step member)
  simp only [storedText, replied] at stored
  cases asked : event.input with
  | storeRecord input =>
      simp only [asked, handle, storeRecord] at stored
      cases read : base64Decode input.record with
      | none => simp only [read, reduceCtorEq] at stored
      | some bytes =>
          split at stored
          · split at stored <;> cases stored
            simp_all
          · cases stored
  | health => simp only [asked, reduceCtorEq] at stored
  | fetchRecord input => simp only [asked, reduceCtorEq] at stored
  | searchRecords input => simp only [asked, reduceCtorEq] at stored

theorem latest_behind (policy : ValidationPolicy) (calls : List Call) (key : RecordKey) :
    latest key (trace (serveFor policy) StoreInner.empty (calls.filterMap routes.passed)) =
      current key (trace (handle policy) StoreInner.empty calls) := by
  have steps : ∀ event ∈ trace (handle policy) StoreInner.empty calls,
      (routes.behind (serveFor policy) event).bind (accepted key) = (storedText key event).bind base64Decode :=
    fun event member => accepted_behind key (trace_step member)
  rw [current, lastText, ← getLast?_filterMap_bind fun event member _ => stored_readable member,
    ← List.filterMap_congr steps, latest, ← Front.trace_serve, ← handle_eq_serve, List.filterMap_filterMap]

/-- The store as the calls so far made it. -/
theorem mirrors_calls (policy : ValidationPolicy) (calls : List Call) :
    Mirrors policy (trace (serveFor policy) StoreInner.empty (calls.filterMap routes.passed))
      (final (handle policy) StoreInner.empty calls) := by
  rw [handle_eq_serve]
  exact mirrors_front routes policy calls

theorem consistent_handle {policy : ValidationPolicy} {store : StoreInner} (consistent : store.Consistent)
    (call : Call) : (handle policy store call).2.Consistent := by
  rw [handle_eq, Front.serve]
  split
  · exact consistent
  · next input _ => exact consistent.serve policy input.2

theorem consistent_calls (policy : ValidationPolicy) (calls : List Call) :
    (final (handle policy) StoreInner.empty calls).Consistent :=
  final_invariant StoreInner.consistent_empty fun _ holds call _ => consistent_handle holds call

theorem current_eq {policy : ValidationPolicy} {calls : List Call} (key : RecordKey) :
    current key (trace (handle policy) StoreInner.empty calls) =
      (final (handle policy) StoreInner.empty calls).records[key]?.map SealedRecord.encode := by
  rw [← latest_behind, (mirrors_calls policy calls).latest]

end Behind

section Writes

variable [Primitives]

/-- A store call, judged by what was last stored under its key. -/
structure StoreLaw (policy : ValidationPolicy) (held : Option Bytes) (input : StoreRequest)
    (result : Except (Fault BlindplaneError) StoreResponse) : Prop where
  accepted : ∀ response, result = .ok response ↔ ∃ encoded record, base64Decode input.record = some encoded ∧
    Eligible policy input.key encoded record ∧ (∀ earlier, held = some earlier → Supersedes policy earlier encoded) ∧
    response = ⟨record.context.version, record.manifestRevision, hexEncode record.manifestHash.toList, held.isNone⟩
  malformed : result = .error (.error .malformedEncoding) ↔ base64Decode input.record = none
  misrouted : result = .error (.error .routeContextMismatch) ↔
    ∃ encoded, base64Decode input.record = some encoded ∧ Misrouted policy input.key encoded
  invalid : result = .error (.error .recordInvalid) ↔
    ∃ encoded, base64Decode input.record = some encoded ∧ ¬ Misrouted policy input.key encoded ∧
      ∀ record, ¬ Eligible policy input.key encoded record
  stale : result = .error (.error .staleWrite) ↔
    ∃ encoded record earlier, base64Decode input.record = some encoded ∧ Eligible policy input.key encoded record ∧
      held = some earlier ∧ ¬ Supersedes policy earlier encoded

/-- A store call over a store whose records can be read back. -/
theorem storeRecord_law {policy : ValidationPolicy} {store : StoreInner} {input : StoreRequest}
    (readable : ∀ record, store.records[input.key]? = some record → Eligible policy input.key record.encode record) :
    StoreLaw policy (store.records[input.key]?.map SealedRecord.encode) input (storeRecord policy store input).1 := by
  cases read : base64Decode input.record with
  | none =>
      have replied : (storeRecord policy store input).1 = .error (.error .malformedEncoding) := by
        simp only [storeRecord, read]
      rw [replied]
      constructor <;> simp [read]
  | some encoded =>
      rcases putEncoded_verdict policy store input.key encoded with
        ⟨straight, unfit, e, done⟩ | ⟨elsewhere, unfit, done⟩ | ⟨record, eligible, straight, verdict⟩
      · have replied : (storeRecord policy store input).1 = .error (.error .recordInvalid) := by
          simp only [storeRecord, read, done, mapError_error, Fault.map, BlindplaneError.ofRelay, Except.map]
        rw [replied]
        constructor <;> simp [read, straight, unfit]
      · have replied : (storeRecord policy store input).1 = .error (.error .routeContextMismatch) := by
          simp only [storeRecord, read, done, mapError_error, Fault.map, BlindplaneError.ofRelay, Except.map]
        rw [replied]
        constructor <;> simp [read, elsewhere, unfit]
      · have only : ∀ other, Eligible policy input.key encoded other ↔ other = record := fun other =>
          ⟨fun also => Except.ok.inj (also.decodes.symm.trans eligible.decodes), fun same => same ▸ eligible⟩
        have ranked : ∀ held, store.records[input.key]? = some held →
            (Supersedes policy held.encode encoded ↔ rank held < rank record) :=
          fun held found => supersedes_iff (readable held found).decodes eligible.decodes
        rcases verdict with ⟨held, found, behind, done⟩ | ⟨ahead, done⟩
        · have replied : (storeRecord policy store input).1 = .error (.error .staleWrite) := by
            simp only [storeRecord, read, done, mapError_error, Fault.map, BlindplaneError.ofRelay, Except.map]
          rw [replied]
          constructor <;> simp [read, only, straight, found, ranked held found, behind]
        · have replied : (storeRecord policy store input).1 = .ok ⟨record.context.version, record.manifestRevision,
              hexEncode record.manifestHash.toList, store.records[input.key]?.isNone⟩ := by
            simp only [storeRecord, read, done, mapError_ok, Except.map, StoreResponse.of]
          have supersedes : ∀ held, store.records[input.key]? = some held → Supersedes policy held.encode encoded :=
            fun held found => (ranked held found).mpr (ahead held found)
          rw [replied]
          refine
            { accepted := fun response => ?_
              malformed := by simp [read]
              misrouted := by simp [read, straight]
              invalid := by simp [read, only]
              stale := by simpa [read, only] using supersedes }
          constructor
          · intro same
            refine ⟨encoded, record, read, eligible, fun earlier last => ?_, ?_⟩
            · obtain ⟨held, found, rfl⟩ := Option.map_eq_some_iff.mp last
              exact supersedes held found
            · rw [← Except.ok.inj same, Option.isNone_map]
          · rintro ⟨encoded', record', read', eligible', -, rfl⟩
            obtain rfl := Option.some.inj (read.symm.trans read')
            rw [(only record').mp eligible', Option.isNone_map]

end Writes

section Reads

/-- A lookup, answered from what was last stored under each key. -/
structure SearchLaw [Primitives] (policy : ValidationPolicy) (held : RecordKey → Option Bytes) (input : SearchRequest)
    (result : Except BlindplaneError SearchResponse) : Prop where
  malformed : result = .error .malformedEncoding ↔
    ¬ (input.token.length = 32 ∧ ∀ character ∈ input.token, IsHexDigit character)
  found : ∀ response, result = .ok response → ∃ (token : Vector UInt8 INDEX_TOKEN_LEN) (records : List SealedRecord),
    hexEncode token.toList = input.token.map lower ∧
    response.records = records.map (fun record => base64Encode record.encode) ∧
    (records.Pairwise fun a b => RecordKey.order (RecordKey.of a) (RecordKey.of b) = .lt) ∧
    ∀ record, record ∈ records ↔
      (∃ encoded, held (RecordKey.of record) = some encoded ∧ SealedRecord.decode encoded policy = .ok record) ∧
        Carries record input.tenant input.label input.keyEpoch token
  answered : ∀ e, result = .error e → e = .malformedEncoding

theorem hexEncode_length (bytes : Bytes) : (hexEncode bytes).length = 2 * bytes.length := by
  induction bytes with
  | nil => rfl
  | cons byte rest ih =>
      rw [hexEncode, List.flatMap_cons, List.length_append, ← hexEncode, ih, List.length_cons]
      simp only [encodeByte, List.length_cons, List.length_nil]
      omega

theorem fetchRecord_eq (store : StoreInner) (input : FetchRequest) :
    fetchRecord store input = (okOr (store.records[input.key]?.map SealedRecord.encode) .notFound).map
      fun encoded => ⟨base64Encode encoded⟩ := by
  simp only [fetchRecord, getEncoded, StoreInner.get]
  cases store.records[input.key]? <;> rfl

theorem readToken_eq_some {input : SearchRequest} {token : Vector UInt8 INDEX_TOKEN_LEN} :
    input.readToken = some token ↔ hexDecode input.token = some token.toList := by
  simp only [SearchRequest.readToken, Option.bind_eq_some_iff, Bytes.asArray_eq_some, exists_eq_right]

theorem exists_readToken {input : SearchRequest} :
    (∃ token, input.readToken = some token) ↔
      input.token.length = 32 ∧ ∀ character ∈ input.token, IsHexDigit character := by
  simp only [readToken_eq_some]
  constructor
  · rintro ⟨token, decoded⟩
    obtain ⟨-, digits, encoded⟩ := hexDecode_eq_some input.token decoded
    have lengths := congrArg List.length encoded
    rw [hexEncode_length, List.length_map, Vector.length_toList] at lengths
    exact ⟨lengths.symm, digits⟩
  · rintro ⟨length, digits⟩
    obtain ⟨bytes, decoded⟩ := exists_hexDecode input.token (by rw [length]) digits
    obtain ⟨-, -, encoded⟩ := hexDecode_eq_some input.token decoded
    have sized : bytes.length = INDEX_TOKEN_LEN := by
      have lengths := congrArg List.length encoded
      rw [hexEncode_length, List.length_map, length] at lengths
      simp only [INDEX_TOKEN_LEN]
      omega
    exact ⟨⟨bytes.toArray, sized⟩, decoded⟩

variable [Primitives]

/-- Where what is held can be read back, to hold a record is to hold a text that decodes to it. -/
theorem stored_iff {policy : ValidationPolicy} {store : StoreInner}
    (readable : ∀ key record, store.records[key]? = some record → Eligible policy key record.encode record)
    {record : SealedRecord} :
    (∃ encoded, store.records[RecordKey.of record]?.map SealedRecord.encode = some encoded ∧
      SealedRecord.decode encoded policy = .ok record) ↔ store.records[RecordKey.of record]? = some record := by
  constructor
  · rintro ⟨encoded, found, decodes⟩
    obtain ⟨other, here, rfl⟩ := Option.map_eq_some_iff.mp found
    rw [here, Except.ok.inj ((readable _ other here).decodes.symm.trans decodes)]
  · exact fun found => ⟨record.encode, by rw [found]; rfl, (readable _ record found).decodes⟩

theorem searchRecords_law {policy : ValidationPolicy} {store : StoreInner} {input : SearchRequest}
    (consistent : store.Consistent)
    (readable : ∀ key record, store.records[key]? = some record → Eligible policy key record.encode record) :
    SearchLaw policy (fun key => store.records[key]?.map SealedRecord.encode) input (searchRecords store input) := by
  cases read : input.readToken with
  | none =>
      have replied : searchRecords store input = .error .malformedEncoding := by
        simp only [searchRecords, read, okOr_none_bind]
      have unread : ¬ (input.token.length = 32 ∧ ∀ character ∈ input.token, IsHexDigit character) := by
        rw [← exists_readToken, read]
        rintro ⟨token, none⟩
        cases none
      rw [replied]
      exact
        { malformed := iff_of_true rfl unread
          found := fun _ failed => by cases failed
          answered := fun e same => (Except.error.inj same).symm }
  | some token =>
      have replied : searchRecords store input =
          .ok ⟨(searchEncoded store input.tenant input.label input.keyEpoch token).map base64Encode⟩ := by
        simp only [searchRecords, read, okOr_some_bind]
        rfl
      rw [replied]
      refine
        { malformed := iff_of_false (fun failed => by cases failed) (not_not.mpr (exists_readToken.mp ⟨token, read⟩))
          found := ?_
          answered := fun _ failed => by cases failed }
      rintro response same
      obtain rfl := Except.ok.inj same
      refine ⟨token, store.search input.tenant input.label input.keyEpoch token,
        (hexDecode_eq_some _ (readToken_eq_some.mp read)).2.2, ?_, consistent.search_ordered _ _ _ _, fun record => ?_⟩
      · simp only [searchEncoded, List.map_map]
        rfl
      · rw [consistent.mem_search, stored_iff readable]

end Reads

section Runs

variable [Primitives]

/-- An event of a run is answered over the store that its past left. -/
theorem trace_calls {policy : ValidationPolicy} {calls : List Call} {past rest : List CallEvent} {event : CallEvent}
    (split : trace (handle policy) StoreInner.empty calls = past ++ event :: rest) :
    event.output = (handle policy event.before event.input).1 ∧ event.before.Consistent ∧
      (∀ key record, event.before.records[key]? = some record → Eligible policy key record.encode record) ∧
      ∀ key, current key past = event.before.records[key]?.map SealedRecord.encode := by
  obtain ⟨before, rfl, here, taken⟩ := trace_split split
  have replied : event.output = (handle policy event.before event.input).1 := congrArg Prod.fst taken
  rw [here] at replied ⊢
  exact ⟨replied, consistent_calls policy before, (mirrors_calls policy before).readable, current_eq⟩

theorem handle_refused {policy : ValidationPolicy} {store : StoreInner} {call : Call}
    (refused : (handle policy store call).1.error?.isSome) : (handle policy store call).2 = store := by
  cases call with
  | storeRecord input =>
      simp only [handle, storeRecord] at refused ⊢
      cases read : base64Decode input.record with
      | none => rfl
      | some encoded =>
          rcases putEncoded_cases policy store input.key encoded with ⟨record, receipt, -, -, done⟩ | ⟨-, e, done⟩
          · simp only [read, done, mapError_ok, Except.map, Reply.error?, Option.isSome_none, Bool.false_eq_true] at refused
          · simp only [done]
  | health => rfl
  | fetchRecord input => rfl
  | searchRecords input => rfl

/-- Every write of a run is judged against the last accepted text of its key, a refused
    call changes nothing, and what is accepted for one key only grows in rank. -/
theorem writes_judged (policy : ValidationPolicy) (calls : List Call) :
    let run := trace (handle policy) StoreInner.empty calls
    (∀ past event rest input, run = past ++ event :: rest → event.input = .storeRecord input →
      ∃ result, event.output = .stored result ∧ StoreLaw policy (current input.key past) input result) ∧
    (∀ event ∈ run, event.output.error?.isSome → event.after = event.before) ∧
    ∀ key, (run.filterMap fun event => (storedText key event).bind base64Decode).Pairwise (Supersedes policy) := by
  intro run
  refine ⟨fun past event rest input split asked => ?_, fun event member refused => ?_, fun key => ?_⟩
  · obtain ⟨replied, -, readable, held⟩ := trace_calls split
    refine ⟨(storeRecord policy event.before input).1, ?_, ?_⟩
    · rw [replied, asked]
      rfl
    · rw [held]
      exact storeRecord_law (readable input.key)
  · have taken := trace_step member
    have replied : event.output = (handle policy event.before event.input).1 := congrArg Prod.fst taken
    have left : event.after = (handle policy event.before event.input).2 := congrArg Prod.snd taken
    rw [left]
    exact handle_refused (replied ▸ refused)
  · have steps : ∀ event ∈ run,
        (routes.behind (serveFor policy) event).bind (accepted key) = (storedText key event).bind base64Decode :=
      fun event member => accepted_behind key (trace_step member)
    have growing := (mirrors_calls policy calls).increasing key
    rwa [← Front.trace_serve, ← handle_eq_serve, List.filterMap_filterMap, List.filterMap_congr steps] at growing

/-- Every read of a run answers from the last accepted texts: a fetch returns the very text
    that was stored where this was in standard form, and a lookup returns, in key order, the
    records that carry its token. -/
theorem reads_answered (policy : ValidationPolicy) (calls : List Call) :
    let run := trace (handle policy) StoreInner.empty calls
    (∀ past event rest input, run = past ++ event :: rest → event.input = .fetchRecord input →
      event.output = .fetched ((okOr (current input.key past) .notFound).map fun encoded => ⟨base64Encode encoded⟩) ∧
        ∀ text, lastText input.key past = some text → Standard (chunks 4 text) → event.output = .fetched (.ok ⟨text⟩)) ∧
    ∀ past event rest input, run = past ++ event :: rest → event.input = .searchRecords input →
      ∃ result, event.output = .found result ∧ SearchLaw policy (fun key => current key past) input result := by
  intro run
  refine ⟨fun past event rest input split asked => ?_, fun past event rest input split asked => ?_⟩
  · obtain ⟨replied, -, -, held⟩ := trace_calls split
    have answered : event.output =
        .fetched ((okOr (current input.key past) .notFound).map fun encoded => ⟨base64Encode encoded⟩) := by
      rw [replied, asked, held, ← fetchRecord_eq]
      rfl
    refine ⟨answered, fun text last standard => ?_⟩
    obtain ⟨before, rfl, -, -⟩ := trace_split split
    obtain ⟨front, stored⟩ := List.getLast?_eq_some_iff.mp last
    have member : text ∈ (trace (handle policy) StoreInner.empty before).filterMap (storedText input.key) := by
      rw [stored]
      exact List.mem_concat_self
    obtain ⟨other, inside, there⟩ := List.mem_filterMap.mp member
    obtain ⟨bytes, read⟩ := stored_readable inside there
    rw [answered, current, last, Option.bind_some, read, okOr, Except.map, base64Encode_of_decodes standard read]
  · obtain ⟨replied, consistent, readable, held⟩ := trace_calls split
    refine ⟨searchRecords event.before input, ?_, ?_⟩
    · rw [replied, asked]
      rfl
    · rw [funext held]
      exact searchRecords_law consistent readable

end Runs

end Blindplane.Blazingly
