import Blindplane.Blazingly.Offers
import Blindplane.Blazingly.Restore
import Blindplane.Core.Access

/-! # From an author to its readers

An author seals and carries on a record; anyone at all makes calls to the relay. As long as
the author's signature is on no other record of the key, a fetch returns the newest one that
has reached the relay, in a form that its readers open to what was sealed, and no one else.
-/

namespace Blindplane.Blazingly

open Lib Lib.Utf8 Lib.Checked Lib.Machine Lib.Register Crypto Wire Relay Blindplane.Core

/-- What a client makes of a fetched text. -/
def RecordResponse.decode [Primitives] (response : RecordResponse) (policy : ValidationPolicy) : Option SealedRecord :=
  (base64Decode response.record).bind fun bytes => (SealedRecord.decode bytes policy).toOption

/-- Whatever the calls offer under the key is one of the records: the author's signature is on
    no other record of this key, forged or not. -/
def Authentic [Primitives] (policy : ValidationPolicy) (key : RecordKey) (records : List SealedRecord)
    (calls : List Call) : Prop :=
  ∀ record ∈ calls.filterMap (offered policy), RecordKey.of record = key → record ∈ records

section Newest

variable [ClientPrimitives] [Features] {author : Author} {origin : Origin} {continuations : List Continuation}
  {policy : ValidationPolicy} {calls : List Call}

/-- The newest record that was offered is the one that is held. -/
theorem held_newest {newer older : List SealedRecord} {record : SealedRecord}
    (lineage : Lineage author origin continuations (newer ++ record :: older))
    (authentic : Authentic policy (origin.key) (newer ++ record :: older) calls)
    (reached : record ∈ calls.filterMap (offered policy))
    (newest : ∀ later ∈ newer, later ∉ calls.filterMap (offered policy)) :
    (final (handle policy) StoreInner.empty calls).records[origin.key]? = some record := by
  have greatest := greatest_calls policy calls
  have key := lineage.key record (by simp)
  cases held : (final (handle policy) StoreInner.empty calls).records[origin.key]? with
  | none => exact absurd key (greatest.vacant held reached)
  | some other =>
      obtain ⟨offeredOther, here⟩ := greatest.mem held
      have top : rank record ≤ rank other := greatest.top held reached key
      rcases List.mem_append.mp (authentic other offeredOther here) with inNewer | inOlder
      · exact absurd offeredOther (newest other inNewer)
      · rcases List.mem_cons.mp inOlder with rfl | inOlder
        · rfl
        · have ranked := (List.pairwise_append.mp (lineage.ranked)).2.1
          exact absurd top ((List.pairwise_cons.mp ranked).1 other inOlder).not_ge

omit [Features] in
theorem held_nothing (authentic : Authentic policy (origin.key) records calls)
    (unreached : ∀ record ∈ records, record ∉ calls.filterMap (offered policy)) :
    (final (handle policy) StoreInner.empty calls).records[origin.key]? = none := by
  cases held : (final (handle policy) StoreInner.empty calls).records[origin.key]? with
  | none => rfl
  | some other =>
      obtain ⟨offeredOther, here⟩ := (greatest_calls policy calls).mem held
      exact absurd offeredOther (unreached other (authentic other offeredOther here))

end Newest

/-- The store call of a record under its own key. -/
def storing (record : SealedRecord) : Call := storeCall (RecordKey.of record) (base64Encode record.encode)

/-- Storing what an author issued offers it, and nothing else. -/
theorem offered_issued [ClientPrimitives] {author : Author} (verifies : author.Verifies) {records : List SealedRecord}
    (issued : ∀ record ∈ records, Issued author record) :
    (records.map storing).filterMap (offered (policyFor author.publicKey)) = records := by
  have offers : ∀ record ∈ records, (offered (policyFor author.publicKey) ∘ storing) record = some record := by
    intro record member
    have eligible : Eligible (policyFor author.publicKey) (RecordKey.of record) record.encode record :=
      { decodes := (issued record member).decodes verifies
        validates := (issued record member).validates verifies
        routes := rfl }
    exact offered_storeRecord.mpr ⟨record.encode, base64Decode_base64Encode _, eligible⟩
  rw [List.filterMap_map, List.filterMap_congr offers, List.filterMap_some]

/-- Records of different keys are all held once they are stored. -/
theorem held_issued [ClientPrimitives] {author : Author} (verifies : author.Verifies) {records : List SealedRecord}
    (issued : ∀ record ∈ records, Issued author record) (keys : (records.map RecordKey.of).Nodup) {record : SealedRecord} :
    (final (handle (policyFor author.publicKey)) StoreInner.empty (records.map storing)).records[RecordKey.of record]? =
      some record ↔ record ∈ records := by
  have greatest := greatest_calls (policyFor author.publicKey) (records.map storing)
  rw [offered_issued verifies issued] at greatest
  constructor
  · exact fun held => (greatest.mem held).1
  · intro member
    cases held : (final (handle (policyFor author.publicKey)) StoreInner.empty (records.map storing)).records[
        RecordKey.of record]? with
    | none => exact absurd rfl (greatest.vacant held member)
    | some other =>
        obtain ⟨inside, same⟩ := greatest.mem held
        rw [List.inj_on_of_nodup_map keys inside member same]

section Delivery

variable [LawfulPrimitives] [Features]

/-- Whatever calls anyone makes, in whatever order, as long as the author has signed no other
    record of this key, and no two of the participants' keys share a fingerprint: a fetch
    answers not found until a record of the lineage has reached the relay, and from then on
    the newest one that has. The fetched text decodes to this record, which opens to what was
    sealed for whoever is its reader at that point of the lineage, and has no envelope for
    anyone else; and it is among the answers of a lookup of each of its tokens. -/
theorem lineage_delivered {author : Author} {origin : Origin} {continuations : List Continuation}
    {records : List SealedRecord} (lineage : Lineage author origin continuations records)
    (distinct : Set.InjOn recipientKeyId {key | key ∈ participants origin continuations}) {calls : List Call}
    (authentic : Authentic (policyFor author.publicKey) origin.key records calls) :
    let policy := policyFor author.publicKey
    let reached := calls.filterMap (offered policy)
    let store := final (handle policy) StoreInner.empty calls
    let fetched := fetchRecord store
      { tenant := origin.context.tenant, objectId := origin.context.objectId, field := origin.context.field }
    ((∀ record ∈ records, record ∉ reached) → fetched = .error .notFound) ∧
    ∀ newer record older, records = newer ++ record :: older → record ∈ reached → (∀ later ∈ newer, later ∉ reached) →
      ∃ response, fetched = .ok response ∧ response.decode policy = some record ∧
        (∀ keypair : RecipientKeypair,
          (keypair.recipient ∈ readers origin (continuations.drop newer.length) →
            Core.open record keypair author.publicKey = .ok origin.plaintext) ∧
          (keypair.recipient.address ∉ (readers origin (continuations.drop newer.length)).map Recipient.address →
            Core.open record keypair author.publicKey = .error .noEnvelopeForRecipient)) ∧
        ∀ index ∈ record.indexes, ∃ candidates, searchRecords store
            { tenant := origin.context.tenant, label := index.label, keyEpoch := index.keyEpoch,
              token := hexEncode index.token.toList } = .ok candidates ∧ response.record ∈ candidates.records := by
  intro policy reached store fetched
  have served : fetched = (okOr (store.records[origin.key]?.map SealedRecord.encode) .notFound).map
      fun encoded => ⟨base64Encode encoded⟩ := fetchRecord_eq store _
  refine ⟨fun unreached => ?_, ?_⟩
  · rw [served, held_nothing authentic unreached]
    rfl
  · rintro newer record older rfl inReached newest
    have held := held_newest lineage authentic inReached newest
    have issued := lineage.issued record (by simp)
    have verifies := author.verifies
    have key := lineage.key record (by simp)
    refine ⟨⟨base64Encode record.encode⟩, by rw [served, held]; rfl, ?_, fun keypair => ?_, fun index member => ?_⟩
    · rw [RecordResponse.decode, base64Decode_base64Encode, Option.bind_some, issued.decodes verifies]
      rfl
    · exact lineage.open_at distinct keypair
    · have token : SearchRequest.readToken
          { tenant := origin.context.tenant, label := index.label, keyEpoch := index.keyEpoch,
            token := hexEncode index.token.toList } = some index.token :=
        readToken_eq_some.mpr (hexDecode_hexEncode _)
      refine ⟨⟨(searchEncoded store origin.context.tenant index.label index.keyEpoch index.token).map base64Encode⟩,
        ?_, List.mem_map_of_mem (List.mem_map_of_mem ?_)⟩
      · simp only [searchRecords, token, okOr_some_bind]
        rfl
      · refine (consistent_calls policy calls).mem_search.mpr ⟨by rw [key, held], congrArg RecordKey.tenant key, ?_⟩
        exact ⟨index, member, rfl, rfl, rfl⟩

end Delivery

section SampleDelivery

attribute [local instance] sampleLawful defaultFeatures

/-- The sample's records reach the relay out of order, the first one last: what is fetched is
    the rekey, which opens for Bob and no longer for Alice. -/
theorem lineage_delivered_bob :
    let policy := policyFor sampleAuthor.publicKey
    let calls := [grantedRecord, rekeyedRecord, sealedRecord].map storing
    ∃ response, fetchRecord (final (handle policy) StoreInner.empty calls)
        { tenant := sampleContext.tenant, objectId := sampleContext.objectId, field := sampleContext.field } =
          .ok response ∧
      response.decode policy = some rekeyedRecord ∧
      Core.open rekeyedRecord bob sampleAuthor.publicKey = .ok (asBytes "hi") ∧
      Core.open rekeyedRecord alice sampleAuthor.publicKey = .error .noEnvelopeForRecipient := by
  intro policy calls
  have offers : calls.filterMap (offered policy) = [grantedRecord, rekeyedRecord, sealedRecord] :=
    offered_issued sample_verifies fun record member => sample_lineage.issued record (by
      simpa [or_comm, or_left_comm] using member)
  have authentic : Authentic policy sampleOrigin.key [rekeyedRecord, grantedRecord, sealedRecord] calls := by
    intro record member _
    rw [offers] at member
    simpa [or_comm, or_left_comm] using member
  obtain ⟨-, delivered⟩ := lineage_delivered sample_lineage sample_fingerprints authentic
  obtain ⟨response, fetched, decoded, access, -⟩ := delivered [] rekeyedRecord [grantedRecord, sealedRecord] rfl
    (by rw [offers]; simp) fun _ none => by cases none
  exact ⟨response, fetched, decoded, (access bob).1 (List.mem_singleton_self _), (access alice).2 (by decide +kernel)⟩

end SampleDelivery

end Blindplane.Blazingly
