import Blindplane.Blazingly.Delivery
import Blindplane.Core.Assembled
import Blindplane.Core.Filing

/-! # Finding records by value

The relay sees tokens and knows no values. Where the clients of a tenant file what they seal,
and the MAC tells their inputs apart, a lookup still answers for a value: it returns the
records that are current and filed under it, and a record that a later write has filed
elsewhere is not among them.
-/

namespace Blindplane.Blazingly

open Lib Lib.Utf8 Lib.Bytes Lib.Checked Lib.Machine Lib.Register Crypto Wire Relay Blindplane.Core

/-- The lookup of what a client made of an entry. -/
def lookupOf (tenant : String) (index : BlindIndex) : SearchRequest where
  tenant
  label := index.label
  keyEpoch := index.keyEpoch
  token := hexEncode index.token.toList

section Catalogue

variable [Primitives]

/-- Every record of the tenant that the calls offer is filed under its entries, as what a
    client seals or carries on is. -/
def Catalogued (policy : ValidationPolicy) (key : SearchKey) (tenant : String) (filing : SealedRecord → List Entry)
    (calls : List Call) : Prop :=
  ∀ record ∈ calls.filterMap (offered policy), record.context.tenant = tenant → Filed key (filing record) record

/-- An entry that is asked for, or that a record of the tenant was filed under. -/
def AtHand (policy : ValidationPolicy) (tenant : String) (filing : SealedRecord → List Entry) (calls : List Call)
    (asked other : Entry) : Prop :=
  other = asked ∨ ∃ record ∈ calls.filterMap (offered policy), record.context.tenant = tenant ∧ other ∈ filing record

variable {policy : ValidationPolicy} {key : SearchKey} {tenant : String} {filing : SealedRecord → List Entry}
  {calls : List Call} {entry : Entry} {index : BlindIndex}

omit [Primitives] in
theorem readToken_lookupOf : (lookupOf tenant index).readToken = some index.token :=
  readToken_eq_some.mpr (hexDecode_hexEncode _)

/-- A record that is held carries the token of an entry exactly when it is one of the tenant
    and filed under the entry. -/
theorem held_carries_iff (catalogued : Catalogued policy key tenant filing calls)
    (made : entry.index key tenant = .ok index)
    (apart : Set.InjOn (tokenOf key) (Entry.input tenant '' {other | AtHand policy tenant filing calls entry other}))
    {record : SealedRecord}
    (held : (final (handle policy) StoreInner.empty calls).records[RecordKey.of record]? = some record) :
    Carries record tenant index.label index.keyEpoch index.token ↔
      record.context.tenant = tenant ∧
        ∃ other ∈ filing record, other.definition = entry.definition ∧ other.value = entry.value := by
  refine and_congr_right fun here => ?_
  subst here
  have inside := ((greatest_calls policy calls).mem held).1
  refine (catalogued record inside rfl).carries_iff made (apart.mono ?_)
  rintro input ⟨other, member, rfl⟩
  refine ⟨other, ?_, rfl⟩
  rcases List.mem_cons.mp member with same | filed
  · exact .inl same
  · exact .inr ⟨record, inside, rfl, filed⟩

/-- After any calls, the lookup of an entry's token succeeds and returns, each once and in key
    order, the texts of exactly those last stored records of the tenant that their clients
    filed under this definition and value. -/
theorem search_exact (catalogued : Catalogued policy key tenant filing calls)
    (made : entry.index key tenant = .ok index)
    (apart : Set.InjOn (tokenOf key) (Entry.input tenant '' {other | AtHand policy tenant filing calls entry other})) :
    ∃ records : List SealedRecord,
      searchRecords (final (handle policy) StoreInner.empty calls) (lookupOf tenant index) =
        .ok ⟨records.map fun record => base64Encode record.encode⟩ ∧
      (records.Pairwise fun a b => RecordKey.order (RecordKey.of a) (RecordKey.of b) = .lt) ∧
      ∀ record, record ∈ records ↔
        (∃ encoded, current (RecordKey.of record) (trace (handle policy) StoreInner.empty calls) = some encoded ∧
          SealedRecord.decode encoded policy = .ok record) ∧
        record.context.tenant = tenant ∧
        ∃ other ∈ filing record, other.definition = entry.definition ∧ other.value = entry.value := by
  have consistent := consistent_calls policy calls
  refine ⟨(final (handle policy) StoreInner.empty calls).search tenant index.label index.keyEpoch index.token, ?_,
    consistent.search_ordered _ _ _ _, fun record => ?_⟩
  · simp only [searchRecords, readToken_lookupOf, okOr_some_bind, searchEncoded, List.map_map]
    rfl
  · rw [consistent.mem_search, current_eq, stored_iff (mirrors_calls policy calls).readable]
    exact and_congr_right fun held => held_carries_iff catalogued made apart held

end Catalogue

/-- An answer in key order that holds one record holds it once. -/
theorem eq_singleton_of_ascending {records : List SealedRecord} {record : SealedRecord}
    (ascending : records.Pairwise fun a b => RecordKey.order (RecordKey.of a) (RecordKey.of b) = .lt)
    (only : ∀ other, other ∈ records ↔ other = record) : records = [record] := by
  have irreflexive (key : RecordKey) : RecordKey.order key key = .eq := Std.ReflCmp.compare_self
  have nodup : records.Nodup := ascending.imp fun below same => by
    rw [same, irreflexive] at below
    cases below
  exact List.perm_singleton.mp ((List.perm_ext_iff_of_nodup nodup (List.nodup_singleton _)).mpr (by simpa using only))

section SampleLookup

attribute [local instance] portableCpu Cpu.primitives defaultFeatures

/-- A name, filed under a definition of its own. -/
def named (name : Bytes) (short : name.length < 2 ^ 64) : Entry where
  definition := { label := "name", schemaVersion := 1, keyEpoch := 1, valid := by decide }
  value := name
  short

def ada : Entry := named [0x41, 0x64, 0x61] (by decide)

def eve : Entry := named [0x45, 0x76, 0x65] (by decide)

def sampleSearchKey : SearchKey := { secret := .replicate 32 5 }

/-- Two bytes, sealed for Carol as an object of their own. -/
def objectOrigin (objectId : String) (index : BlindIndex) : Origin :=
  { carolOrigin with context := { sampleContext with objectId }, indexes := [index] }

theorem exists_object (author : Author) {entry : Entry} {index : BlindIndex}
    (made : entry.index sampleSearchKey sampleContext.tenant = .ok index) (objectId : String)
    (within : LabelWithin ValidationPolicy.default.maxIdentifierBytes objectId) :
    ∃ record, Lineage author (objectOrigin objectId index) [] [record] ∧ Filed sampleSearchKey [entry] record := by
  have before : Admitted (policyFor zeroHash) sampleContext (asBytes "hi").length [carol.recipient] [] :=
    preflight_eq_ok.mp carol_admitted
  have admitted : Admitted (policyFor zeroHash) (objectOrigin objectId index).context (asBytes "hi").length
      [carol.recipient] [index] :=
    { before with
      context := { before.context with objectId := within }
      indexesMax := show 1 ≤ (policyFor zeroHash).maxIndexes.toNat by decide
      indexes := List.forall_mem_singleton.mpr (Entry.index_within made zeroHash) }
  obtain ⟨record, rest, done⟩ : ∃ record rest, (objectOrigin objectId index).begin author
      (fun _ n => some (.replicate n 3)) = .ok (record, rest) :=
    exists_seal rfl (fun _ _ => rfl) (fun _ member => List.mem_singleton.mp member ▸ ⟨carol, rfl⟩)
      (preflight_eq_ok.mpr admitted) (List.nodup_singleton _) (List.nodup_singleton _)
  have lineage : Lineage author (objectOrigin objectId index) [] ([] ++ record :: []) := .sealed done
  refine ⟨record, lineage, lineage.filed ?_⟩
  rw [List.mapM_cons]
  exact bind_eq_ok.mpr ⟨index, made, rfl⟩

/-- The MAC tells the two names apart. -/
theorem tokens_apart : Set.InjOn (tokenOf sampleSearchKey) {ada.input sampleContext.tenant, eve.input sampleContext.tenant} := by
  have apart : tokenOf sampleSearchKey (ada.input sampleContext.tenant) ≠
      tokenOf sampleSearchKey (eve.input sampleContext.tenant) := by decide +kernel
  rintro a (rfl | rfl) b (rfl | rfl) same
  · rfl
  · exact absurd same apart
  · exact absurd same.symm apart
  · rfl

/-- Two objects, one filed under Ada and one under Eve, both held once they are stored. -/
theorem exists_objects (author : Author) :
    ∃ hers other index, ada.index sampleSearchKey sampleContext.tenant = .ok index ∧
      (∀ record ∈ [hers, other], Issued author record ∧ record.context.tenant = sampleContext.tenant) ∧
      Filed sampleSearchKey [ada] hers ∧ Filed sampleSearchKey [eve] other ∧
      ([hers, other].map RecordKey.of).Nodup := by
  have made (entry : Entry) : entry.index sampleSearchKey sampleContext.tenant = .ok _ :=
    Entry.index_eq_ok.mpr ⟨⟨by decide, by decide⟩, rfl⟩
  obtain ⟨hers, first, hersFiled⟩ := exists_object author (made ada) "ada" ⟨by decide, by decide⟩
  obtain ⟨other, second, otherFiled⟩ := exists_object author (made eve) "eve" ⟨by decide, by decide⟩
  have hersKey := first.key hers List.mem_cons_self
  have otherKey := second.key other List.mem_cons_self
  have apart : RecordKey.of hers ≠ RecordKey.of other := by
    rw [hersKey, otherKey]
    decide
  refine ⟨hers, other, _, made ada, ?_, hersFiled, otherFiled, by simpa using apart⟩
  simp only [List.forall_mem_cons, List.not_mem_nil, false_implies, implies_true, and_true]
  exact ⟨⟨first.issued hers List.mem_cons_self, congrArg RecordKey.tenant hersKey⟩,
    second.issued other List.mem_cons_self, congrArg RecordKey.tenant otherKey⟩

/-- Ada's token is on the object that was filed under her, and on no other. -/
theorem carries_ada {record : SealedRecord} (tenant : record.context.tenant = sampleContext.tenant) {index : BlindIndex}
    (made : ada.index sampleSearchKey sampleContext.tenant = .ok index) :
    (Filed sampleSearchKey [ada] record → Carries record sampleContext.tenant index.label index.keyEpoch index.token) ∧
      (Filed sampleSearchKey [eve] record → ¬ Carries record sampleContext.tenant index.label index.keyEpoch index.token) := by
  rw [← tenant] at made
  refine ⟨fun filed => ⟨tenant, (filed.carries_iff made (tokens_apart.mono ?_)).mpr ?_⟩, fun filed carried => ?_⟩
  · rintro - ⟨entry, member, rfl⟩
    obtain rfl : entry = ada := by simpa using member
    exact .inl (by rw [tenant])
  · exact ⟨ada, List.mem_cons_self, rfl, rfl⟩
  · have apart : Set.InjOn (tokenOf sampleSearchKey)
        {input | ∃ other ∈ [ada, eve], input = other.input record.context.tenant} := by
      refine tokens_apart.mono ?_
      rintro - ⟨entry, member, rfl⟩
      rw [tenant]
      rcases List.mem_pair.mp member with rfl | rfl
      · exact .inl rfl
      · exact .inr rfl
    obtain ⟨entry, member, -, value⟩ := (filed.carries_iff made apart).mp carried.2
    rw [List.mem_singleton.mp member] at value
    exact absurd value (by decide)

/-- Two objects are stored, one filed under Ada and one under Eve. Both are held, and the
    lookup of Ada's token returns the first and nothing else. -/
theorem search_exact_ada :
    let author : Author := { signingKey := .replicate 32 7 }
    let store (records : List SealedRecord) := final (handle (policyFor author.publicKey)) StoreInner.empty (records.map storing)
    ∃ hers other index, ada.index sampleSearchKey sampleContext.tenant = .ok index ∧
      (store [hers, other]).records[RecordKey.of other]? = some other ∧
      searchRecords (store [hers, other]) (lookupOf sampleContext.tenant index) = .ok ⟨[base64Encode hers.encode]⟩ := by
  intro author store
  obtain ⟨hers, other, index, made, sealedBy, hersFiled, otherFiled, keys⟩ := exists_objects author
  have issued : ∀ record ∈ [hers, other], Issued author record := fun record member => (sealedBy record member).1
  have apart : other ≠ hers := by
    rintro rfl
    simp at keys
  have offers : ([hers, other].map storing).filterMap (offered (policyFor author.publicKey)) = [hers, other] :=
    offered_issued author.signs issued
  have held {record : SealedRecord} : (store [hers, other]).records[RecordKey.of record]? = some record ↔
      record ∈ [hers, other] :=
    held_issued author.signs issued keys
  let filing (record : SealedRecord) : List Entry := if record = hers then [ada] else [eve]
  have catalogued : Catalogued (policyFor author.publicKey) sampleSearchKey sampleContext.tenant filing
      ([hers, other].map storing) := by
    intro record member _
    rw [offers] at member
    rcases List.mem_pair.mp member with rfl | rfl
    · rwa [show filing record = [ada] from if_pos rfl]
    · rwa [show filing record = [eve] from if_neg apart]
  have names : ∀ entry, AtHand (policyFor author.publicKey) sampleContext.tenant filing ([hers, other].map storing) ada entry →
      entry = ada ∨ entry = eve := by
    rintro entry (rfl | ⟨record, -, -, member⟩)
    · exact .inl rfl
    · simp only [filing] at member
      split at member
      · exact .inl (List.mem_singleton.mp member)
      · exact .inr (List.mem_singleton.mp member)
  obtain ⟨records, answered, ascending, exactly⟩ := search_exact catalogued made (by
    refine tokens_apart.mono ?_
    rintro - ⟨entry, atHand, rfl⟩
    rcases names entry atHand with rfl | rfl
    · exact .inl rfl
    · exact .inr rfl)
  have only : ∀ record, record ∈ records ↔ record = hers := by
    intro record
    rw [exactly, current_eq, stored_iff (mirrors_calls _ _).readable, held]
    constructor
    · rintro ⟨member, -, entry, filed, -, value⟩
      rcases List.mem_pair.mp member with rfl | rfl
      · rfl
      · rw [show filing record = [eve] from if_neg apart, List.mem_singleton] at filed
        subst filed
        exact absurd value (by decide)
    · rintro rfl
      exact ⟨List.mem_cons_self, (sealedBy record List.mem_cons_self).2, ada,
        by rw [show filing record = [ada] from if_pos rfl]; exact List.mem_cons_self, rfl, rfl⟩
  refine ⟨hers, other, index, made, held.mpr (by simp), ?_⟩
  rw [answered, eq_singleton_of_ascending ascending only]
  rfl

end SampleLookup

end Blindplane.Blazingly
