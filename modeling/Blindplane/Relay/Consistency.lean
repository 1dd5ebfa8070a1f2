import Blindplane.Relay.Store
import Blindplane.Lib.Machine

/-! # The secondary index mirrors the records

A write unfiles the tokens of the record it replaces and files its own. One invariant
carries every run of writes: the index holds a key under a token exactly when the record
at that key has that token, and nothing is left behind.
-/

namespace Blindplane.Relay

open Lib Lib.Checked Lib.Machine Crypto Wire Std

/-- The record is one of that tenant, with that token under that label and epoch. -/
def Carries (record : SealedRecord) (tenant label : String) (keyEpoch : UInt64)
    (token : Vector UInt8 INDEX_TOKEN_LEN) : Prop :=
  record.context.tenant = tenant ∧
    ∃ index ∈ record.indexes, index.label = label ∧ index.keyEpoch = keyEpoch ∧ index.token = token

theorem carries_iff {record : SealedRecord} {token : IndexKey} :
    Carries record token.1 token.2.1 token.2.2.1 token.2.2.2 ↔
      ∃ index ∈ record.indexes, IndexKey.of record.context.tenant index = token := by
  obtain ⟨tenant, label, keyEpoch, token⟩ := token
  simp only [Carries, IndexKey.of, Prod.mk.injEq]
  constructor
  · rintro ⟨sameTenant, index, member, same⟩
    exact ⟨index, member, sameTenant, same⟩
  · rintro ⟨index, member, sameTenant, same⟩
    exact ⟨sameTenant, index, member, same⟩

namespace StoreInner

/-- The index and the record map describe the same set. -/
structure Consistent (store : StoreInner) : Prop where
  keyed : ∀ key record, store.records[key]? = some record → RecordKey.of record = key
  holds : ∀ token key, InvertedIndex.Holds store.index token key ↔
    ∃ record, store.records[key]? = some record ∧
      Carries record token.1 token.2.1 token.2.2.1 token.2.2.2
  tidy : InvertedIndex.NoEmpty store.index

theorem getElem?_replace (store : StoreInner) (key other : RecordKey) (record : SealedRecord) :
    (store.replace key record).records[other]? =
      if key = other then some record else store.records[other]? :=
  InvertedIndex.getElem?_insert_eq store.records key other record

theorem consistent_empty : Consistent empty where
  keyed key record found := by simp [empty] at found
  holds token key := by simp [empty]
  tidy := InvertedIndex.noEmpty_empty

/-- Unfiling the tokens of the record held at a key unfiles the key. -/
theorem Consistent.holds_forget {store : StoreInner} (consistent : store.Consistent)
    {key other : RecordKey} {token : IndexKey} :
    InvertedIndex.Holds (store.forget key) token other ↔
      InvertedIndex.Holds store.index token other ∧ other ≠ key := by
  unfold forget
  split
  · next vacant =>
    refine ⟨fun holds => ⟨holds, ?_⟩, And.left⟩
    rintro rfl
    obtain ⟨record, found, -⟩ := (consistent.holds token other).mp holds
    rw [vacant] at found
    cases found
  · next previous held =>
    rw [InvertedIndex.holds_dropAll]
    refine and_congr_right fun holds => ?_
    constructor
    · rintro kept rfl
      obtain ⟨record, found, carries⟩ := (consistent.holds token other).mp holds
      obtain rfl := Option.some.inj (held.symm.trans found)
      exact kept ⟨rfl, carries_iff.mp carries⟩
    · exact fun apart both => apart both.1

theorem Consistent.tidy_forget {store : StoreInner} (consistent : store.Consistent)
    (key : RecordKey) : InvertedIndex.NoEmpty (store.forget key) := by
  unfold forget
  split
  · exact consistent.tidy
  · exact consistent.tidy.dropAll _

/-- Writing a record under its own key keeps the two in step. -/
theorem Consistent.replace {store : StoreInner} (consistent : store.Consistent)
    (record : SealedRecord) : (store.replace (RecordKey.of record) record).Consistent where
  keyed key held found := by
    rw [getElem?_replace] at found
    split at found
    · next same => rw [← Option.some.inj found, same]
    · exact consistent.keyed key held found
  holds token key := by
    rw [getElem?_replace]
    show InvertedIndex.Holds (InvertedIndex.addAll _ _ _ _) token key ↔ _
    rw [InvertedIndex.holds_addAll, consistent.holds_forget, ← carries_iff]
    split
    · next same =>
      subst same
      simp only [ne_eq, not_true_eq_false, and_false, false_or, true_and, Option.some.injEq,
        exists_eq_left']
    · next apart =>
      simp only [ne_eq, Ne.symm apart, not_false_eq_true, and_true, false_and, or_false]
      exact consistent.holds token key
  tidy := (consistent.tidy_forget _).addAll _

variable [Primitives]

/-- Everything a critical write section can do. -/
theorem commit_cases (store : StoreInner) (record : SealedRecord) :
    (∃ created, admission store.records[RecordKey.of record]? record = .ok created ∧
      store.commit record =
        (.ok ⟨record.context.version, record.manifestRevision, record.manifestHash, created⟩,
          store.replace (RecordKey.of record) record)) ∨
      ∃ e, admission store.records[RecordKey.of record]? record = .error e ∧
        store.commit record = (.error e, store) := by
  simp only [commit]
  cases admission store.records[RecordKey.of record]? record with
  | ok created => exact .inl ⟨created, rfl, rfl⟩
  | error e => exact .inr ⟨e, rfl, rfl⟩

/-- A write under some policy. -/
structure PutCall where
  record : SealedRecord
  policy : ValidationPolicy

def call (store : StoreInner) (call : PutCall) : Except RelayError WriteReceipt × StoreInner :=
  store.put call.record call.policy

theorem Consistent.commit {store : StoreInner} (consistent : store.Consistent)
    (record : SealedRecord) : (store.commit record).2.Consistent := by
  rcases store.commit_cases record with ⟨created, -, done⟩ | ⟨e, -, refused⟩
  · rw [done]
    exact consistent.replace record
  · rw [refused]
    exact consistent

theorem Consistent.put {store : StoreInner} (consistent : store.Consistent)
    (record : SealedRecord) (policy : ValidationPolicy) : (store.put record policy).2.Consistent := by
  unfold StoreInner.put
  split
  · exact consistent
  · exact consistent.commit record

omit [Primitives] in
theorem Consistent.mem_search {store : StoreInner} (consistent : store.Consistent)
    {tenant label : String} {keyEpoch : UInt64} {token : Vector UInt8 INDEX_TOKEN_LEN}
    {record : SealedRecord} :
    record ∈ store.search tenant label keyEpoch token ↔
      store.records[RecordKey.of record]? = some record ∧
        Carries record tenant label keyEpoch token := by
  have found : record ∈ store.search tenant label keyEpoch token ↔
      ∃ key, InvertedIndex.Holds store.index (tenant, label, keyEpoch, token) key ∧
        store.records[key]? = some record := by
    simp only [search, InvertedIndex.Holds, InvertedIndex.keysOf]
    cases store.index[(tenant, label, keyEpoch, token)]? with
    | none => simp
    | some keys => simp [ExtTreeSet.mem_toList]
  rw [found]
  constructor
  · rintro ⟨key, holds, held⟩
    obtain ⟨other, held', carries⟩ := (consistent.holds _ _).mp holds
    obtain rfl := Option.some.inj (held.symm.trans held')
    exact ⟨by rw [consistent.keyed key record held, held], carries⟩
  · rintro ⟨held, carries⟩
    exact ⟨RecordKey.of record, (consistent.holds _ _).mpr ⟨record, held, carries⟩, held⟩

omit [Primitives] in
theorem Consistent.search_ordered {store : StoreInner} (consistent : store.Consistent)
    (tenant label : String) (keyEpoch : UInt64) (token : Vector UInt8 INDEX_TOKEN_LEN) :
    (store.search tenant label keyEpoch token).Pairwise fun a b =>
      RecordKey.order (RecordKey.of a) (RecordKey.of b) = .lt := by
  unfold search
  split
  · exact List.Pairwise.nil
  · next keys _ =>
    refine List.Pairwise.filterMap _ (fun a b before x foundX y foundY => ?_) keys.ordered_toList
    rw [consistent.keyed a x foundX, consistent.keyed b y foundY]
    exact before

/-- After any writes, the index and the records describe one set, and a search finds
    exactly the stored records that carry the token, each once and in key order. -/
theorem index_mirrors_records (calls : List PutCall) :
    let store := final call empty calls
    (∀ key tenant label keyEpoch token,
      InvertedIndex.Holds store.index (tenant, label, keyEpoch, token) key ↔
        ∃ record, store.records[key]? = some record ∧ Carries record tenant label keyEpoch token) ∧
      InvertedIndex.NoEmpty store.index ∧
      (∀ key record, store.records[key]? = some record → RecordKey.of record = key) ∧
      ∀ tenant label keyEpoch token,
        (∀ record, record ∈ store.search tenant label keyEpoch token ↔
          store.records[RecordKey.of record]? = some record ∧
            Carries record tenant label keyEpoch token) ∧
        (store.search tenant label keyEpoch token).Pairwise fun a b =>
          RecordKey.order (RecordKey.of a) (RecordKey.of b) = .lt := by
  intro store
  have consistent : store.Consistent :=
    final_invariant consistent_empty fun _ holds input _ => holds.put input.record input.policy
  exact ⟨fun key _ _ _ _ => consistent.holds _ key, consistent.tidy, consistent.keyed,
    fun tenant label keyEpoch token =>
      ⟨fun _ => consistent.mem_search, consistent.search_ordered tenant label keyEpoch token⟩⟩

end StoreInner

end Blindplane.Relay
