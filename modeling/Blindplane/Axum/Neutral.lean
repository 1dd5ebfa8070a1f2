import Blindplane.Axum.Adapter
import Blindplane.Blazingly.Lookup
import Blindplane.Blazingly.Plugin
import Blindplane.Relay.Space

/-! # Two adapters, one relay

Neither adapter is privileged. What one of them is asked the other can be asked as well, in
its own spelling, and then both keep the same store and answer alike, as far as the models of
the first admit the call; a text that spells nothing never gets to the relay. The bare frames
of the second adapter lose nothing either, under a policy that keeps records below the reach
of their prefixes.
-/

namespace Blindplane.Axum

open Lib Lib.Utf8 Lib.Bytes Lib.Checked Lib.Machine Crypto Wire Relay Blindplane.Core
open Blazingly (BlindplaneError StoreResponse base64Encode base64Decode hexEncode)

/-- The same call, spelled for the other adapter. -/
def twin : Call → Blazingly.Call
  | .health => .health
  | .storeRecord tenant objectId field body => .storeRecord { tenant, objectId, field, record := base64Encode body }
  | .fetchRecord tenant objectId field => .fetchRecord { tenant, objectId, field }
  | .searchRecords tenant label keyEpoch body => .searchRecords { tenant, label, keyEpoch, token := hexEncode body }

/-- The call that the other adapter's texts spell, if they do. -/
def untwin : Blazingly.Call → Option Call
  | .health => some .health
  | .storeRecord input => (base64Decode input.record).map (.storeRecord input.tenant input.objectId input.field)
  | .fetchRecord input => some (.fetchRecord input.tenant input.objectId input.field)
  | .searchRecords input => input.readToken.map fun token => .searchRecords input.tenant input.label input.keyEpoch token.toList

/-- The same answer, spelled twice. -/
def Agrees : Option Reply → Blazingly.Reply → Prop
  | some reply, .health text => reply = .text 200 text
  | some reply, .stored (.ok stored) => ∃ receipt, reply = .receipt receipt ∧ stored = .of receipt
  | some reply, .stored (.error (.error error)) =>
      reply.status = error.status ∧ ∃ refused, reply = .refusal refused ∧ error = .ofRelay refused
  | some reply, .fetched (.ok response) => ∃ body, reply = .octets body ∧ response.record = base64Encode body
  | some reply, .fetched (.error error) =>
      reply.status = error.status ∧ ∃ refused, reply = .refusal refused ∧ error = .ofRelay refused
  | some reply, .found (.ok response) =>
      ∃ records, reply = .octets (frames records) ∧ response.records = records.map base64Encode
  | some reply, .found (.error error) => reply.status = error.status
  | none, .stored (.error (.panic _)) => True
  | _, _ => False

theorem statusFor_eq (error : RelayError) : statusFor error = (BlindplaneError.ofRelay error).status := by
  cases error <;> rfl

theorem twins : Front.Twins router Blazingly.routes twin Agrees where
  forwarded call := by
    cases call with
    | health => exact .inl rfl
    | storeRecord tenant objectId field body =>
        simp only [router, forward, Blazingly.routes, twin, Blazingly.forward, Blazingly.base64Decode_base64Encode]
        exact .inr rfl
    | fetchRecord tenant objectId field => exact .inr rfl
    | searchRecords tenant label keyEpoch body =>
        have read : Blazingly.SearchRequest.readToken { tenant, label, keyEpoch, token := hexEncode body } =
            asArray INDEX_TOKEN_LEN body := by
          rw [Blazingly.SearchRequest.readToken, Blazingly.hexDecode_hexEncode, Option.bind_some]
        simp only [router, forward, Blazingly.routes, twin, Blazingly.forward, read]
        cases asArray INDEX_TOKEN_LEN body with
        | none => exact .inl rfl
        | some token => exact .inr rfl
  answered response := by
    cases response with
    | written result =>
        rcases result with (error | _) | receipt
        · exact ⟨statusFor_eq error, error, rfl, rfl⟩
        · trivial
        · exact ⟨receipt, rfl, rfl⟩
    | fetched result =>
        cases result with
        | error error => exact ⟨statusFor_eq error, error, rfl, rfl⟩
        | ok encoded => exact ⟨encoded, rfl, rfl⟩
    | found candidates => exact ⟨candidates, rfl, rfl⟩

/-- What gets through one adapter gets through the other. -/
theorem passed_untwin (call : Blazingly.Call) : (untwin call).bind router.passed = Blazingly.routes.passed call := by
  cases call with
  | health => rfl
  | storeRecord input =>
      simp only [untwin, Front.passed, router, Blazingly.routes, Blazingly.forward]
      cases base64Decode input.record <;> rfl
  | fetchRecord input => rfl
  | searchRecords input =>
      simp only [untwin, Front.passed, Blazingly.routes, Blazingly.forward]
      cases input.readToken with
      | none => rfl
      | some token =>
          have read : asArray INDEX_TOKEN_LEN token.toList = some token := asArray_eq_some.mpr rfl
          simp only [Option.map_some, Option.bind_some, Front.passed, router, forward, read]
          rfl

section Runs

variable [Primitives] {policy : ValidationPolicy}

theorem handle_replies (store : StoreInner) (call : Call) : (handle policy store call).1.isSome := by
  cases call with
  | health => rfl
  | storeRecord tenant objectId field body =>
      rcases putEncoded_verdict policy store ⟨tenant, objectId, field⟩ body with
        ⟨-, -, error, done⟩ | ⟨-, -, done⟩ | ⟨record, -, -, ⟨held, -, -, done⟩ | ⟨-, done⟩⟩ <;>
        simp only [handle, storeRecord, done, Option.isSome_some]
  | fetchRecord tenant objectId field => rfl
  | searchRecords tenant label keyEpoch body => rfl

/-- The adapters' own handling of corresponding calls, before any bounds. -/
theorem handles_agree (policy : ValidationPolicy) (calls : List Call) :
    final (Blazingly.handle policy) StoreInner.empty (calls.map twin) = final (handle policy) StoreInner.empty calls ∧
      List.Forall₂ (fun event event' => Agrees event.output event'.output ∧ event'.before = event.before)
        (trace (handle policy) StoreInner.empty calls) (trace (Blazingly.handle policy) StoreInner.empty (calls.map twin)) := by
  rw [handle_eq_serve, Blazingly.handle_eq_serve]
  exact ⟨twins.final_eq _ calls, twins.trace_forall₂ _ calls⟩

/-- A run of the plugin, whatever calls it is given, is a run behind axum on those of them that
    are within the bounds of its models: through the same stores and with the same answers,
    and the rest it refuses on its own. No handler ever fails to answer. What the plugin is
    asked in texts of its own leaves the store that the calls they spell leave behind axum.
    Memory is granted here: an allocator that refuses nothing within the policy's limits makes
    no difference to what is decoded. -/
theorem adapters_agree (measure : Bytes → Nat) (policy : ValidationPolicy) :
    (∀ calls : List Call,
      let within := calls.filter fun call => (twin call).Valid measure
      let run := trace (Blazingly.plugin measure policy) StoreInner.empty (calls.map twin)
      final (Blazingly.plugin measure policy) StoreInner.empty (calls.map twin) = final (handle policy) StoreInner.empty within ∧
      List.Forall₂ (fun event event' => Agrees event.output event'.output ∧ event'.before = event.before)
        (trace (handle policy) StoreInner.empty within) (run.filterMap Blazingly.routed) ∧
      (∀ event ∈ run, event.output = .invalid ↔ ¬ event.input.Valid measure) ∧
      ∀ event ∈ trace (handle policy) StoreInner.empty calls, event.output.isSome) ∧
    (∀ calls : List Blazingly.Call,
      final (Blazingly.plugin measure policy) StoreInner.empty calls =
        final (handle policy) StoreInner.empty ((calls.filter (·.Valid measure)).filterMap untwin)) ∧
    ∀ alloc : Allocator, ¬ alloc.Refuses policy →
      ∀ bytes, SealedRecord.decode bytes policy alloc = SealedRecord.decode bytes policy := by
  refine ⟨fun calls => ?_, fun calls => ?_, fun alloc granted bytes => decode_of_not_refuses granted bytes⟩
  · intro within run
    have reached : (calls.map twin).filter (·.Valid measure) = within.map twin := List.filter_map
    obtain ⟨left, answers⟩ := handles_agree policy within
    refine ⟨?_, ?_, fun event member => Blazingly.output_invalid_iff member, fun event member => ?_⟩
    · rw [Blazingly.final_plugin, reached, left]
    · rwa [Blazingly.trace_plugin, reached]
    · have replied : event.output = (handle policy event.before event.input).1 := congrArg Prod.fst (trace_step member)
      rw [replied]
      exact handle_replies event.before event.input
  · rw [Blazingly.final_plugin, handle_eq_serve, Blazingly.handle_eq_serve, Front.final_serve, Front.final_serve,
      List.filterMap_filterMap]
    exact congrArg _ (List.filterMap_congr fun call _ => (passed_untwin call).symm)

/-- Under a policy whose records their prefixes can measure, a lookup by 16 bytes is answered
    with the frames of exactly the held records that carry this token, in key order, and these
    frames are read back in one way only; by any other number of bytes that its handler is
    given it is refused. -/
theorem candidates_exact (small : policy.recordSpace < 2 ^ 32) (calls : List Call) :
    ∀ event ∈ trace (handle policy) StoreInner.empty calls, ∀ (tenant label : String) (keyEpoch : UInt64) (body : Bytes),
      event.input = .searchRecords tenant label keyEpoch body →
        (body.length ≠ INDEX_TOKEN_LEN → event.output = some (.text 400 "token must be 16 bytes")) ∧
        ∀ token : Vector UInt8 INDEX_TOKEN_LEN, body = token.toList → ∃ records : List SealedRecord,
          event.output = some (.octets (frames (records.map SealedRecord.encode))) ∧
          (records.Pairwise fun a b => RecordKey.order (RecordKey.of a) (RecordKey.of b) = .lt) ∧
          (∀ record, record ∈ records ↔ event.before.records[RecordKey.of record]? = some record ∧
            Carries record tenant label keyEpoch token) ∧
          ∀ found : List Bytes, (∀ encoded ∈ found, encoded.length < 2 ^ 32) →
            frames found = frames (records.map SealedRecord.encode) → found = records.map SealedRecord.encode := by
  intro event member tenant label keyEpoch body asked
  obtain ⟨past, rest, split⟩ := List.append_of_mem member
  obtain ⟨before, -, here, taken⟩ := trace_split split
  have replied : event.output = (handle policy event.before event.input).1 := congrArg Prod.fst taken
  rw [replied, asked, handle]
  constructor
  · intro wrong
    have unread : asArray INDEX_TOKEN_LEN body = none := by
      rw [← Option.not_isSome_iff_eq_none, asArray_isSome]
      exact wrong
    rw [searchRecords, unread]
  · rintro token rfl
    rw [handle_eq_serve] at here
    have consistent : event.before.Consistent := here ▸ consistent_front router policy before
    have spacious : Spacious policy event.before := here ▸ spacious_of_readable (mirrors_front router policy before).readable
    have read : asArray INDEX_TOKEN_LEN token.toList = some token := asArray_eq_some.mpr rfl
    refine ⟨event.before.search tenant label keyEpoch token, ?_, consistent.search_ordered _ _ _ _,
      fun record => consistent.mem_search, fun found short same => ?_⟩
    · rw [searchRecords, read]
      rfl
    · exact frames_inj short (fun encoded candidate => (spacious.found candidate).trans_lt small) same

end Runs

section SampleCandidates

attribute [local instance] portableCpu Cpu.primitives defaultFeatures

/-- The store call of a record under its own path. -/
def storing (record : SealedRecord) : Call :=
  .storeRecord record.context.tenant record.context.objectId record.context.field record.encode

/-- Two objects are stored under a policy that pins their author, one filed under Ada and one
    under Eve. Both are held, and Ada's token is answered with the frame of the first, which
    frames nothing else. -/
theorem candidates_exact_ada :
    let author : Author := { signingKey := .replicate 32 7 }
    let policy := policyFor author.publicKey
    let store (records : List SealedRecord) := final (handle policy) StoreInner.empty (records.map storing)
    ∃ (hers other : SealedRecord) (index : BlindIndex),
      Blazingly.ada.index Blazingly.sampleSearchKey sampleContext.tenant = .ok index ∧
      (store [hers, other]).records[RecordKey.of other]? = some other ∧
      (handle policy (store [hers, other])
        (.searchRecords sampleContext.tenant index.label index.keyEpoch index.token.toList)).1 =
          some (.octets (frames [hers.encode])) ∧
      ∀ found : List Bytes, (∀ encoded ∈ found, encoded.length < 2 ^ 32) → frames found = frames [hers.encode] →
        found = [hers.encode] := by
  intro author policy store
  obtain ⟨hers, other, index, made, sealedBy, hersFiled, otherFiled, keys⟩ := Blazingly.exists_objects author
  have stored : store [hers, other] =
      final (Blazingly.handle policy) StoreInner.empty ([hers, other].map Blazingly.storing) :=
    (handles_agree policy ([hers, other].map storing)).1.symm
  have held {record : SealedRecord} : (store [hers, other]).records[RecordKey.of record]? = some record ↔
      record ∈ [hers, other] := by
    rw [stored]
    exact Blazingly.held_issued author.signs (fun record member => (sealedBy record member).1) keys
  let lookup : Call := .searchRecords sampleContext.tenant index.label index.keyEpoch index.token.toList
  have asked : ⟨store [hers, other], lookup, (handle policy (store [hers, other]) lookup).1,
      (handle policy (store [hers, other]) lookup).2⟩ ∈
      trace (handle policy) StoreInner.empty ([hers, other].map storing ++ [lookup]) := by
    rw [trace_append]
    exact List.mem_append_right _ List.mem_cons_self
  obtain ⟨records, answered, ascending, exactly, unique⟩ :=
    (candidates_exact (by decide : policy.recordSpace < 2 ^ 32) _ _ asked _ _ _ _ rfl).2 index.token rfl
  have only : ∀ record, record ∈ records ↔ record = hers := by
    intro record
    rw [exactly, held]
    constructor
    · rintro ⟨member, carried⟩
      rcases List.mem_pair.mp member with rfl | rfl
      · rfl
      · exact absurd carried ((Blazingly.carries_ada (sealedBy _ (by simp)).2 made).2 otherFiled)
    · rintro rfl
      exact ⟨List.mem_cons_self, (Blazingly.carries_ada (sealedBy record List.mem_cons_self).2 made).1 hersFiled⟩
  obtain rfl : records = [hers] := Blazingly.eq_singleton_of_ascending ascending only
  exact ⟨hers, other, index, made, held.mpr (by simp), answered, unique⟩

end SampleCandidates

end Blindplane.Axum
