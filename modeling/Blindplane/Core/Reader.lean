import Blindplane.Core.Access
import Blindplane.Core.Pinned
import Blindplane.Wire.Fork

/-! # A reader that keeps a head

A reader starts at some record of a lineage and offers its head whatever a server sends.
The revision of a record is its place in the lineage, so a head can only move one record
forward at a time, and what it takes for current is the record it stands at.
-/

namespace Blindplane.Core

open Lib Lib.Utf8 Lib.Checked Lib.Machine Crypto Wire FreshnessHead Relay

/-- Two ends of a list of one length are one. -/
private theorem suffix_unique {α : Type} {whole xs ys : List α} (endsX : xs <:+ whole) (endsY : ys <:+ whole)
    (length : xs.length = ys.length) : xs = ys :=
  (List.suffix_of_suffix_length_le endsX endsY length.le).eq_of_length length

section Following

variable [ClientPrimitives] [Features] {author : Author} {origin : Origin} {calls : List Continuation}
  {records later rest : List SealedRecord} {current : SealedRecord}

/-- The revision of a record counts the records that came before it. -/
theorem Lineage.revision (lineage : Lineage author origin calls (current :: rest)) :
    current.manifestRevision.toNat = rest.length + 1 := by
  generalize made : current :: rest = all at lineage
  induction lineage generalizing current rest with
  | sealed done =>
      obtain ⟨rfl, rfl⟩ := List.cons.inj made
      rw [(seal_ok done).revision]
      rfl
  | carriedOn before done ih =>
      obtain ⟨rfl, rfl⟩ := List.cons.inj made
      rw [(Continuation.succeeds done).revision, ih rfl, List.length_cons]

/-- The next record after the current one is all that a head there accepts. -/
theorem offer_cases (lineage : Lineage author origin calls (later ++ current :: rest))
    (distinct : Set.InjOn SealedRecord.manifestHash {record | record ∈ later ++ current :: rest})
    {record : SealedRecord} {policy : ValidationPolicy}
    (authentic : RecordKey.of record = origin.key → record.validate policy = .ok () → record ∈ later ++ current :: rest) :
    ((fromValidated current).advance record policy = (.ok (), fromValidated record) ∧
      ∃ newer, later ++ current :: rest = newer ++ record :: current :: rest) ∨
    ∃ e, (fromValidated current).advance record policy = (.error e, fromValidated current) := by
  rcases advance_cases (fromValidated current) record policy with ⟨valid, continues, revision, advanced⟩ | ⟨-, stayed⟩
  · refine .inl ⟨advanced, ?_⟩
    have key : RecordKey.of record = origin.key := by
      rw [← lineage.key current (by simp), RecordKey.of, RecordKey.of]
      obtain ⟨tenant, objectId, field⟩ := continues.identity
      simp only [fromValidated] at tenant objectId field
      rw [tenant, objectId, field]
    obtain ⟨newer, older, split⟩ := List.append_of_mem (authentic key valid)
    have placed := (split ▸ lineage).before.revision
    have here := lineage.before.revision
    by_cases exhausted : current.manifestRevision = maxRevision
    · -- at the last revision there is no next one, and no record links to itself
      have last : record.manifestRevision = current.manifestRevision := by
        rw [revision]
        simp only [fromValidated, exhausted, saturatingAdd_max]
      have length : older.length = rest.length := by
        rw [last] at placed
        omega
      have same : record :: older = current :: rest :=
        suffix_unique (split ▸ List.suffix_append newer _) (List.suffix_append later _) (by simp [length])
      obtain ⟨rfl, rfl⟩ := List.cons.inj same
      cases older with
      | nil =>
          rw [exhausted] at here
          exact absurd here (by decide)
      | cons previous older =>
          have succeeds := (List.isChain_cons_cons.mp lineage.before.chained).1
          have loop : previous.manifestHash = record.manifestHash := succeeds.linked.symm.trans continues.linked
          obtain rfl := distinct (by simp) (by simp) loop
          exact absurd succeeds.revision (Nat.succ_ne_self _).symm
    · have next : record.manifestRevision.toNat = current.manifestRevision.toNat + 1 := by
        rw [revision]
        exact saturatingAdd_one_of_lt exhausted
      cases older with
      | nil =>
          rw [List.length_nil] at placed
          omega
      | cons previous older =>
          have inside : previous :: older <:+ later ++ current :: rest :=
            split ▸ (List.suffix_cons record _).trans (List.suffix_append newer _)
          have length : (previous :: older).length = (current :: rest).length := by
            simp only [List.length_cons] at placed ⊢
            omega
          have same := suffix_unique inside (List.suffix_append later _) length
          exact ⟨newer, by rw [split, same]⟩
  · exact .inr stayed

/-- Whatever is offered, the head stands at a record of the lineage, as many records further
    on as there were acceptances. -/
theorem stands_further (lineage : Lineage author origin calls (later ++ current :: rest))
    (distinct : Set.InjOn SealedRecord.manifestHash {record | record ∈ later ++ current :: rest})
    {offers : List Offer} (authentic : ∀ offer ∈ offers, RecordKey.of offer.record = origin.key →
      offer.record.validate offer.policy = .ok () → offer.record ∈ later ++ current :: rest) :
    ∃ newer last older, later ++ current :: rest = newer ++ last :: older ∧
      final offer (fromValidated current) offers = fromValidated last ∧
      older.length = rest.length + successes (trace offer (fromValidated current) offers) := by
  induction offers generalizing later current rest with
  | nil => exact ⟨later, current, rest, rfl, rfl, rfl⟩
  | cons next offers ih =>
      obtain ⟨here, others⟩ := List.forall_mem_cons.mp authentic
      rcases offer_cases lineage distinct here with ⟨accepted, newer, split⟩ | ⟨e, refused⟩
      · obtain ⟨newer', last, older, split', stands, counted⟩ := ih (split ▸ lineage) (split ▸ distinct) (split ▸ others)
        refine ⟨newer', last, older, split.trans split', ?_, ?_⟩
        · rw [final_cons, offer, accepted]
          exact stands
        · rw [counted, trace_cons, successes, successes, List.countP_cons, offer, accepted, List.length_cons]
          simp only [Except.isOk, Except.toBool, if_true]
          omega
      · obtain ⟨newer', last, older, split', stands, counted⟩ := ih lineage distinct others
        refine ⟨newer', last, older, split', ?_, ?_⟩
        · rw [final_cons, offer, refused]
          exact stands
        · rw [counted, trace_cons, successes, successes, List.countP_cons, offer, refused]
          simp only [Except.isOk, Except.toBool, Bool.false_eq_true, if_false]
          omega

/-- Offered the records after its own in their order, a head takes them all. -/
theorem catches_up (verifies : author.Verifies) (lineage : Lineage author origin calls (later ++ current :: rest)) :
    final offer (fromValidated current) (later.reverse.map (⟨·, policyFor author.publicKey⟩)) =
      fromValidated (later.headD current) := by
  induction later using List.reverseRecOn generalizing current rest with
  | nil => rfl
  | append_singleton newer next ih =>
      rw [List.append_assoc, List.singleton_append] at lineage
      have succeeds := (List.isChain_cons_cons.mp lineage.before.chained).1
      have valid := (lineage.issued next (by simp)).validates verifies
      rw [List.reverse_append, List.reverse_singleton, List.singleton_append, List.map_cons, final_cons, offer,
        succeeds.advances valid, ih lineage]
      cases newer <;> rfl

/-- What a head takes for current is the record it stands at. -/
theorem openAtHead_eq (verifies : author.Verifies) (lineage : Lineage author origin calls records)
    (distinct : Set.InjOn SealedRecord.manifestHash {record | record ∈ records}) (inside : current ∈ records)
    {candidate : SealedRecord} (member : candidate ∈ records) (keypair : RecipientKeypair) :
    openAtHead candidate keypair author.publicKey (fromValidated current) =
      if candidate = current then Core.open candidate keypair author.publicKey
      else .error (.wire .rollbackDetected) := by
  have valid := (lineage.issued candidate member).validates verifies
  have exact_head := requireExactHead_fromValidated distinct inside member
  rw [openAtHead, verifyCurrent, valid, ok_bind]
  split
  · next same =>
    rw [exact_head.mpr same]
    rfl
  · next apart =>
    have refused : (fromValidated current).requireExactHead candidate = .error .rollbackDetected := by
      rw [requireExactHead, rejectIf] at exact_head ⊢
      split
      · rfl
      · next sound =>
        rw [if_neg sound] at exact_head
        exact absurd (exact_head.mp rfl) apart
    rw [refused]
    rfl

end Following

section Reading

variable [LawfulPrimitives] [Features]

/-- A reader keeps a head on a lineage, started at any of its records, and a server sends
    whatever it likes. As long as the author has signed no other record of this key, and no
    two records of the lineage share a manifest hash nor two of its participants' keys a
    fingerprint, the head stands at a record of the lineage that is as many records further
    on as offers were accepted; of all records the reader opens this one, to what was sealed
    if it is then a reader, and detects every other one as a rollback; and a server that sends
    the missing records in order takes the head to the newest. -/
theorem reader_follows {author : Author} {origin : Origin} {calls : List Continuation}
    {later rest : List SealedRecord} {current : SealedRecord}
    (lineage : Lineage author origin calls (later ++ current :: rest))
    (distinct : Set.InjOn SealedRecord.manifestHash {record | record ∈ later ++ current :: rest})
    (fingerprints : Set.InjOn recipientKeyId {key | key ∈ participants origin calls}) {offers : List SealedRecord}
    (authentic : ∀ record ∈ offers, RecordKey.of record = origin.key →
      record.validate (policyFor author.publicKey) = .ok () → record ∈ later ++ current :: rest) :
    let offered := offers.map fun record => Offer.mk record (policyFor author.publicKey)
    let head := final offer (fromValidated current) offered
    (∃ newer last older, later ++ current :: rest = newer ++ last :: older ∧ head = fromValidated last ∧
      older.length = rest.length + successes (trace offer (fromValidated current) offered) ∧
      ∀ candidate ∈ later ++ current :: rest, ∀ keypair : RecipientKeypair,
        (candidate ≠ last → openAtHead candidate keypair author.publicKey head = .error (.wire .rollbackDetected)) ∧
        (candidate = last → keypair.recipient ∈ readers origin (calls.drop newer.length) →
          openAtHead candidate keypair author.publicKey head = .ok origin.plaintext) ∧
        (candidate = last →
          keypair.recipient.address ∉ (readers origin (calls.drop newer.length)).map Recipient.address →
          openAtHead candidate keypair author.publicKey head = .error .noEnvelopeForRecipient)) ∧
    final offer (fromValidated current) (later.reverse.map (⟨·, policyFor author.publicKey⟩)) =
      fromValidated (later.headD current) := by
  intro offered head
  have allowed : ∀ offer ∈ offered, RecordKey.of offer.record = origin.key → offer.record.validate offer.policy = .ok () →
      offer.record ∈ later ++ current :: rest := by
    intro offer member key valid
    obtain ⟨record, inside, rfl⟩ := List.mem_map.mp member
    exact authentic record inside key valid
  obtain ⟨newer, last, older, split, stands, counted⟩ := stands_further lineage distinct allowed
  refine ⟨⟨newer, last, older, split, stands, counted, fun candidate member keypair => ?_⟩,
    catches_up author.verifies lineage⟩
  have inside : last ∈ later ++ current :: rest := split ▸ List.mem_append_right _ List.mem_cons_self
  have opens := openAtHead_eq author.verifies lineage distinct inside member keypair
  obtain ⟨reads, excluded⟩ := (split ▸ lineage).open_at fingerprints keypair
  rw [show head = fromValidated last from stands, opens]
  refine ⟨fun apart => if_neg apart, fun same member => ?_, fun same outside => ?_⟩
  · rw [if_pos same, same]
    exact reads member
  · rw [if_pos same, same]
    exact excluded outside

end Reading

section SampleReading

attribute [local instance] sampleLawful defaultFeatures

/-- Bob starts at the record that was sealed for Alice. A server sends him the grant, the old
    record again, and the rekey: he stands at the rekey, which opens for him alone, and takes
    the grant for a rollback. -/
theorem reader_follows_bob :
    let head := final offer (fromValidated sealedRecord)
      ([grantedRecord, sealedRecord, rekeyedRecord].map (⟨·, policyFor sampleAuthor.publicKey⟩))
    openAtHead rekeyedRecord bob sampleAuthor.publicKey head = .ok (asBytes "hi") ∧
      openAtHead rekeyedRecord alice sampleAuthor.publicKey head = .error .noEnvelopeForRecipient ∧
      openAtHead grantedRecord bob sampleAuthor.publicKey head = .error (.wire .rollbackDetected) := by
  intro head
  have hashes : ([rekeyedRecord, grantedRecord, sealedRecord].map SealedRecord.manifestHash).Nodup := by decide +kernel
  have distinct : Set.InjOn SealedRecord.manifestHash {record | record ∈ [rekeyedRecord, grantedRecord] ++ [sealedRecord]} :=
    fun _ inA _ inB same => List.inj_on_of_nodup_map hashes inA inB same
  have authentic : ∀ record ∈ [grantedRecord, sealedRecord, rekeyedRecord], RecordKey.of record = sampleOrigin.key →
      record.validate (policyFor sampleAuthor.publicKey) = .ok () → record ∈ [rekeyedRecord, grantedRecord] ++ [sealedRecord] := by
    intro record member _ _
    simpa [or_comm, or_left_comm] using member
  obtain ⟨⟨newer, last, older, split, -, counted, access⟩, -⟩ :=
    reader_follows sample_lineage distinct sample_fingerprints authentic
  have twice : older.length = 0 + 2 := counted.trans (congrArg _ (by decide +kernel))
  obtain ⟨rfl, rfl⟩ : newer = [] ∧ last = rekeyedRecord := by
    have whole := congrArg List.length split
    simp only [List.length_append, List.length_cons, List.length_nil, twice] at whole
    obtain rfl := List.length_eq_zero_iff.mp (by omega : newer.length = 0)
    exact ⟨rfl, (List.cons.inj split).1.symm⟩
  have apart : grantedRecord ≠ rekeyedRecord := by decide +kernel
  exact ⟨(access _ List.mem_cons_self bob).2.1 rfl (List.mem_singleton_self _),
    (access _ List.mem_cons_self alice).2.2 rfl (by decide +kernel),
    (access _ (List.mem_cons_of_mem _ List.mem_cons_self) bob).1 apart⟩

end SampleReading

end Blindplane.Core
