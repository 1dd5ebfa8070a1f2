import Blindplane.Core.Admission
import Blindplane.Core.Transcripts

/-! # Filing records under values

A client that wants to find a record again seals it with tokens of the values that it holds.
As far as the MAC tells inputs apart, a token stands for one value under one definition.
-/

namespace Blindplane.Core

open Lib Lib.Utf8 Lib.Bytes Lib.Checked Crypto Wire Relay

/-- A value under a definition. -/
structure Entry where
  definition : ExactIndexDefinition
  value : Bytes
  short : value.length < 2 ^ 64

section Tokens

variable [Primitives]

/-- The token of an input under a search key. -/
def tokenOf (key : SearchKey) (input : Bytes) : Vector UInt8 INDEX_TOKEN_LEN :=
  fixed INDEX_TOKEN_LEN (HmacSha256.mac key.secret.toList input).toList

/-- The input of an entry's token. -/
def Entry.input (tenant : String) (entry : Entry) : Bytes := tokenInput tenant entry.definition entry.value

/-- The index that a client makes of an entry. -/
def Entry.index (key : SearchKey) (tenant : String) (entry : Entry) : Except CryptoError BlindIndex :=
  key.exactTokenRaw tenant entry.definition entry.value

/-- The record has an index for each of the entries, and no other. -/
def Filed (key : SearchKey) (entries : List Entry) (record : SealedRecord) : Prop :=
  ∀ index, index ∈ record.indexes ↔ ∃ entry ∈ entries, entry.index key record.context.tenant = .ok index

theorem Entry.index_eq_ok {key : SearchKey} {tenant : String} {entry : Entry} {index : BlindIndex} :
    entry.index key tenant = .ok index ↔
      LabelWithin ValidationPolicy.default.maxIdentifierBytes tenant ∧
      index = { label := entry.definition.label
                schemaVersion := entry.definition.schemaVersion
                canonicalizerId := "raw_bytes"
                canonicalizerVersion := 1
                keyEpoch := entry.definition.keyEpoch
                token := tokenOf key (entry.input tenant) } := by
  rw [Entry.index, exactTokenRaw_eq]
  simp only [bind_eq_ok, rejectIf_eq_ok, pure_eq_ok, labelAdmitted_iff, exists_const]
  exact and_congr_right fun _ => eq_comm

/-- Whatever a definition makes is within the limits of a record. -/
theorem Entry.index_within {key : SearchKey} {tenant : String} {entry : Entry} {index : BlindIndex}
    (made : entry.index key tenant = .ok index) (signer : Vector UInt8 32) : IndexWithin (policyFor signer) index := by
  obtain ⟨-, rfl⟩ := Entry.index_eq_ok.mp made
  have valid := entry.definition.valid
  simp only [not_or] at valid
  obtain ⟨nonempty, short, schemaVersion, keyEpoch⟩ := valid
  exact
    { label := labelAdmitted_iff.mp (not_or.mpr ⟨nonempty, short⟩)
      canonicalizerId := show LabelWithin ValidationPolicy.default.maxIdentifierBytes "raw_bytes" from ⟨by decide, by decide⟩
      keyEpoch
      schemaVersion
      canonicalizerVersion := show (1 : UInt16) ≠ 0 by decide }

/-- The input of a token determines the entry. -/
theorem Entry.input_inj {tenant : String} (short : (asBytes tenant).length < 2 ^ 64) {a b : Entry}
    (same : a.input tenant = b.input tenant) : a.definition = b.definition ∧ a.value = b.value := by
  obtain ⟨-, label, schemaVersion, keyEpoch, value⟩ :=
    Transcript.determined (a := .token tenant a.definition a.value) (b := .token tenant b.definition b.value)
      ⟨short, a.short⟩ ⟨short, b.short⟩ same
  refine ⟨?_, value⟩
  obtain ⟨⟨_, _, _, _⟩, _, _⟩ := a
  obtain ⟨⟨_, _, _, _⟩, _, _⟩ := b
  simp only at label schemaVersion keyEpoch
  subst label schemaVersion keyEpoch
  rfl

omit [Primitives] in
theorem labelWithin_short {tenant : String} (within : LabelWithin ValidationPolicy.default.maxIdentifierBytes tenant) :
    (asBytes tenant).length < 2 ^ 64 :=
  within.2.trans_lt (by decide)

/-- A record carries the token of an entry exactly when it was filed under the entry, as far
    as the MAC tells the inputs of the tokens apart. -/
theorem Filed.carries_iff {key : SearchKey} {entries : List Entry} {record : SealedRecord}
    (filed : Filed key entries record) {entry : Entry} {index : BlindIndex}
    (made : entry.index key record.context.tenant = .ok index)
    (apart : Set.InjOn (tokenOf key) {input | ∃ other ∈ entry :: entries, input = other.input record.context.tenant}) :
    (∃ other ∈ record.indexes, other.label = index.label ∧ other.keyEpoch = index.keyEpoch ∧ other.token = index.token) ↔
      ∃ other ∈ entries, other.definition = entry.definition ∧ other.value = entry.value := by
  obtain ⟨within, rfl⟩ := Entry.index_eq_ok.mp made
  constructor
  · rintro ⟨found, member, -, -, token⟩
    obtain ⟨other, inside, filedUnder⟩ := (filed found).mp member
    obtain ⟨-, rfl⟩ := Entry.index_eq_ok.mp filedUnder
    have inputs : other.input record.context.tenant = entry.input record.context.tenant :=
      apart ⟨other, List.mem_cons_of_mem _ inside, rfl⟩ ⟨entry, List.mem_cons_self, rfl⟩ token
    exact ⟨other, inside, Entry.input_inj (labelWithin_short within) inputs⟩
  · rintro ⟨other, inside, definition, value⟩
    have inputs : other.input record.context.tenant = entry.input record.context.tenant := by
      rw [Entry.input, Entry.input, definition, value]
    refine ⟨_, (filed _).mpr ⟨other, inside, Entry.index_eq_ok.mpr ⟨within, rfl⟩⟩, ?_, ?_, ?_⟩
    · rw [definition]
    · rw [definition]
    · rw [inputs]

end Tokens

section Lineages

variable [ClientPrimitives] [Features] {author : Author} {origin : Origin} {calls : List Continuation}
  {record : SealedRecord} {source rest : Entropy}

/-- The indexes of the last seal or rekey. -/
def indexesOf (origin : Origin) : List Continuation → List BlindIndex
  | [] => origin.indexes
  | .grant _ _ :: calls => indexesOf origin calls
  | .rekey _ _ _ indexes :: _ => indexes

theorem mem_indexes_of_seal {context : RecordContext} {plaintext : Bytes} {recipients : List Recipient}
    {indexes : List BlindIndex} {suite : Suite}
    (done : Core.seal author context plaintext recipients indexes suite source = .ok (record, rest)) {index : BlindIndex} :
    index ∈ record.indexes ↔ index ∈ indexes := by
  obtain ⟨-, _, _, _, _, _, _, -, -, -, rfl, -⟩ := seal_eq_ok.mp done
  exact (sortByScope_perm _ _).mem_iff

theorem mem_indexes_of_rekey {next : SealedRecord} {opening : RecipientKeypair} {context : RecordContext}
    {recipients : List Recipient} {indexes : List BlindIndex}
    (done : Core.rekey record opening author context recipients indexes source = .ok (next, rest)) {index : BlindIndex} :
    index ∈ next.indexes ↔ index ∈ indexes := by
  simp only [Core.rekey, Process.bind_eq_ok, Process.embed_eq_ok, Process.pure_eq_ok] at done
  obtain ⟨_, _, -, _, _, -, _, _, sealed, _, _, -, _, _, -, rfl, -⟩ := done
  exact mem_indexes_of_seal sealed

/-- A grant keeps the indexes; a seal or a rekey sets them. -/
theorem Lineage.mem_indexes {older : List SealedRecord} (lineage : Lineage author origin calls (record :: older))
    {index : BlindIndex} : index ∈ record.indexes ↔ index ∈ indexesOf origin calls := by
  generalize made : record :: older = records at lineage
  induction lineage generalizing record older with
  | sealed done =>
      obtain ⟨rfl, rfl⟩ := List.cons.inj made
      exact mem_indexes_of_seal done
  | @carriedOn calls previous older call source rest next before done ih =>
      obtain ⟨rfl, rfl⟩ := List.cons.inj made
      cases call with
      | grant granting recipient =>
          have kept : record.indexes = previous.indexes := by rw [(grantRecipient_ok done).unchanged]
          rw [kept]
          exact ih rfl
      | rekey opening context recipients indexes => exact mem_indexes_of_rekey done

/-- Where the indexes of the last seal or rekey are made of entries, the record is filed
    under these entries. -/
theorem Lineage.filed {newer older : List SealedRecord}
    (lineage : Lineage author origin calls (newer ++ record :: older)) {key : SearchKey} {entries : List Entry}
    (made : entries.mapM (Entry.index key origin.key.tenant) = .ok (indexesOf origin (calls.drop newer.length))) :
    Filed key entries record := by
  have tenant : record.context.tenant = origin.key.tenant :=
    congrArg RecordKey.tenant (lineage.key record (by simp))
  intro index
  rw [lineage.before.mem_indexes, mem_mapM made, tenant]

end Lineages

end Blindplane.Core
