import Blindplane.Relay.Concurrent
import Blindplane.Wire.Size

/-! # What a relay can be made to hold

Anyone can send a relay anything. What it keeps for a key, and what it sends back for a
record, stays within the space of its policy all the same, whatever the clients do and
however their requests interleave.
-/

namespace Blindplane.Relay

open Lib Lib.Checked Lib.Machine Crypto Wire Std

variable [Primitives] {policy : ValidationPolicy}

theorem Eligible.length_le {key : RecordKey} {encoded : Bytes} {record : SealedRecord}
    (eligible : Eligible policy key encoded record) : encoded.length ≤ policy.recordSpace := by
  obtain ⟨within, -, -⟩ := validate_eq_ok.mp eligible.validates
  rw [(decode_eq_ok.mp eligible.decodes).1]
  exact within.encode_length

/-- A store of records that fit. -/
def Spacious (policy : ValidationPolicy) (store : StoreInner) : Prop :=
  ∀ (key : RecordKey) (record : SealedRecord), store.records[key]? = some record →
    record.encode.length ≤ policy.recordSpace

theorem spacious_of_readable {store : StoreInner}
    (readable : ∀ key record, store.records[key]? = some record → Eligible policy key record.encode record) :
    Spacious policy store :=
  fun key record found => (readable key record found).length_le

omit [Primitives] in
theorem Spacious.total {store : StoreInner} (spacious : Spacious policy store) :
    (store.records.toList.map fun entry => entry.2.encode.length).sum ≤ store.records.size * policy.recordSpace := by
  have each : ∀ entry ∈ store.records.toList, entry.2.encode.length ≤ policy.recordSpace :=
    fun entry member => spacious entry.1 entry.2 (ExtTreeMap.mem_toList_iff_getElem?_eq_some.mp member)
  have summed := List.sum_le_card_nsmul (store.records.toList.map fun entry => entry.2.encode.length) policy.recordSpace
    (List.forall_mem_map.mpr each)
  rwa [List.length_map, ExtTreeMap.length_toList] at summed

omit [Primitives] in
theorem Spacious.fetched {store : StoreInner} (spacious : Spacious policy store) {key : RecordKey} {encoded : Bytes}
    (got : getEncoded store key = .ok encoded) : encoded.length ≤ policy.recordSpace := by
  simp only [getEncoded, StoreInner.get] at got
  cases found : store.records[key]? with
  | none =>
      rw [found] at got
      cases got
  | some record =>
      rw [found] at got
      obtain rfl := Except.ok.inj got
      exact spacious key record found

omit [Primitives] in
theorem Spacious.found {store : StoreInner} (spacious : Spacious policy store) {tenant label : String} {keyEpoch : UInt64}
    {token : Vector UInt8 INDEX_TOKEN_LEN} {encoded : Bytes}
    (member : encoded ∈ searchEncoded store tenant label keyEpoch token) : encoded.length ≤ policy.recordSpace := by
  obtain ⟨record, candidate, rfl⟩ := List.mem_map.mp member
  simp only [StoreInner.search] at candidate
  split at candidate
  · cases candidate
  · obtain ⟨key, -, found⟩ := List.mem_filterMap.mp candidate
    exact spacious key record found

/-- What a write of more than the space is answered with. -/
theorem putEncoded_oversized (store : StoreInner) (key : RecordKey) {encoded : Bytes}
    (oversized : policy.recordSpace < encoded.length) :
    ∃ e, putEncoded policy store key encoded = (.error e, store) := by
  rcases putEncoded_cases policy store key encoded with ⟨record, receipt, eligible, -, -⟩ | ⟨-, refused⟩
  · exact absurd eligible.length_le (Nat.not_le.mpr oversized)
  · exact refused

section Interleaved

variable {C : Type}

theorem spacious_run (requests : List (C × Request)) :
    Spacious policy (final (serveFor policy) StoreInner.empty requests) :=
  spacious_of_readable (mirrors_run policy requests).readable

variable [DecidableEq C]

/-- Whatever the interleaving, no record that is held or sent back takes more than the space of
    the policy, a write of more is refused, and the whole store takes no more than that for
    each of its keys. -/
theorem space_bounded (policy : ValidationPolicy) (schedule : List (C × Action)) :
    let system := final (System.act policy) (System.initial : System C) schedule
    (∀ (key : RecordKey) (record : SealedRecord), system.store.records[key]? = some record →
      record.encode.length ≤ policy.recordSpace) ∧
      (system.store.records.toList.map fun entry => entry.2.encode.length).sum ≤
        system.store.records.size * policy.recordSpace ∧
      ∀ client request response, system.phase client = .returned request response →
        (∀ encoded, response = .fetched (.ok encoded) → encoded.length ≤ policy.recordSpace) ∧
        (∀ candidates, response = .found candidates → ∀ encoded ∈ candidates, encoded.length ≤ policy.recordSpace) ∧
        ∀ key encoded, request = .put key encoded → policy.recordSpace < encoded.length → response.IsErr := by
  intro system
  have linearized : system.Linearized policy := System.linearized_run policy schedule
  have spacious : Spacious policy system.store := linearized.store ▸ spacious_run system.served
  refine ⟨spacious, spacious.total, fun client request response phase => ?_⟩
  obtain ⟨event, last, rfl, rfl⟩ := System.answered_run phase
  obtain ⟨past, rest, split⟩ := List.append_of_mem (List.mem_filter.mp (List.mem_of_getLast? last)).1
  obtain ⟨before, -, here, taken⟩ := trace_split split
  have earlier : Spacious policy event.before := here ▸ spacious_run before
  have replied : event.output = (serve policy event.before event.input.2).1 := congrArg Prod.fst taken
  rw [replied]
  refine ⟨fun encoded fetched => ?_, fun candidates found encoded member => ?_, fun key encoded put oversized => ?_⟩
  · cases asked : event.input.2 with
    | get key =>
        rw [asked] at fetched
        exact earlier.fetched (Response.fetched.inj fetched)
    | put key encoded => cases asked ▸ fetched
    | search tenant label keyEpoch token => cases asked ▸ fetched
  · cases asked : event.input.2 with
    | search tenant label keyEpoch token =>
        rw [asked] at found
        exact earlier.found (Response.found.inj found ▸ member)
    | put key encoded => cases asked ▸ found
    | get key => cases asked ▸ found
  · obtain ⟨e, refused⟩ := putEncoded_oversized event.before key oversized
    rw [put, serve, refused]
    exact ⟨e, rfl⟩

end Interleaved

end Blindplane.Relay
