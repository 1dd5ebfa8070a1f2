import Blindplane.Core.Lineage

/-! # Who can read a lineage

At any point of a lineage the readers are the recipients of the last seal or rekey and
everyone granted access since. Every envelope of the current record wraps the one object
secret for one of them, so a key pair opens the record exactly when it is a reader's.
-/

namespace Blindplane.Core

open Lib Lib.Utf8 Lib.Checked Crypto Wire

section Access

variable [ClientPrimitives]

/-- The recipients of the last seal or rekey, and those granted access since. -/
def readers (origin : Origin) : List Continuation → List Recipient
  | [] => origin.recipients
  | .grant _ recipient :: calls => recipient :: readers origin calls
  | .rekey _ _ recipients _ :: _ => recipients

/-- The public keys of everyone who took part in a lineage. -/
def participants (origin : Origin) : List Continuation → List (Vector UInt8 32)
  | [] => origin.recipients.map Recipient.publicKey
  | .grant granting recipient :: calls =>
      granting.recipient.publicKey :: recipient.publicKey :: participants origin calls
  | .rekey opening _ recipients _ :: calls =>
      opening.recipient.publicKey ::
        (recipients.map Recipient.publicKey ++ participants origin calls)

theorem readers_participate (origin : Origin) (calls : List Continuation) :
    ∀ reader ∈ readers origin calls, reader.publicKey ∈ participants origin calls := by
  induction calls with
  | nil => exact fun reader member => List.mem_map_of_mem member
  | cons call calls ih =>
      cases call with
      | grant granting recipient =>
          refine List.forall_mem_cons.mpr ⟨by simp [participants], fun reader member => ?_⟩
          exact List.mem_cons_of_mem _ (List.mem_cons_of_mem _ (ih reader member))
      | rekey opening context recipients indexes =>
          intro reader member
          exact List.mem_cons_of_mem _ (List.mem_append_left _ (List.mem_map_of_mem member))

/-- Whoever took part before takes part later. -/
theorem participants_drop (origin : Origin) (n : Nat) :
    ∀ calls : List Continuation, ∀ key ∈ participants origin (calls.drop n), key ∈ participants origin calls := by
  induction n with
  | zero => exact fun calls key member => member
  | succ n ih =>
      intro calls key member
      cases calls with
      | nil => exact member
      | cons call calls =>
          have earlier := ih calls key member
          cases call with
          | grant granting recipient => exact List.mem_cons_of_mem _ (List.mem_cons_of_mem _ earlier)
          | rekey opening context recipients indexes =>
              exact List.mem_cons_of_mem _ (List.mem_append_right _ earlier)

/-- What an envelope is looked up by. -/
theorem recipient_eq_some {record : SealedRecord} {reader : Recipient} {envelope : RecipientEnvelope}
    (found : record.recipient reader.recipientId reader.keyEpoch reader.recipientKeyId =
      some envelope) :
    envelope ∈ record.recipients ∧
      (envelope.recipientId, envelope.keyEpoch, envelope.recipientKeyId) = reader.address := by
  have named := List.find?_some found
  simp only [decide_eq_true_eq] at named
  obtain ⟨recipientId, keyEpoch, recipientKeyId⟩ := named
  exact ⟨List.mem_of_find?_eq_some found, by rw [recipientId, keyEpoch, recipientKeyId]; rfl⟩

theorem Wraps.address {objectSecret : Vector UInt8 DEK_LEN} {context : RecordContext}
    {reader : Recipient} {envelope : RecipientEnvelope}
    (wraps : Wraps objectSecret context reader envelope) :
    (envelope.recipientId, envelope.keyEpoch, envelope.recipientKeyId) = reader.address := by
  rw [wraps.recipientId, wraps.keyEpoch, wraps.recipientKeyId]
  rfl

section Readers

variable {objectSecret : Vector UInt8 DEK_LEN} {members : List Recipient} {record : SealedRecord}
  {keys : Set (Vector UInt8 32)} {keypair : RecipientKeypair}

/-- A reader finds an envelope made for its own key. -/
theorem Shares.find (shares : Shares objectSecret members record)
    (distinct : Set.InjOn recipientKeyId keys) (known : ∀ member ∈ members, member.publicKey ∈ keys)
    (inside : keypair.recipient.publicKey ∈ keys)
    (reads : keypair.recipient.address ∈ members.map Recipient.address) :
    ∃ envelope, record.recipient keypair.recipient.recipientId keypair.recipient.keyEpoch
        keypair.recipient.recipientKeyId = some envelope ∧
      Wraps objectSecret record.context keypair.recipient envelope := by
  obtain ⟨reader, member, address⟩ := List.mem_map.mp reads
  obtain ⟨envelope, here, wraps⟩ := shares.every reader member
  have present : (record.recipient keypair.recipient.recipientId keypair.recipient.keyEpoch
      keypair.recipient.recipientKeyId).isSome := by
    simp only [SealedRecord.recipient, List.find?_isSome, decide_eq_true_eq]
    have named := wraps.address.trans address
    simp only [Recipient.address, Prod.mk.injEq] at named
    exact ⟨envelope, here, named⟩
  obtain ⟨found, lookup⟩ := Option.isSome_iff_exists.mp present
  obtain ⟨there, named⟩ := recipient_eq_some lookup
  obtain ⟨other, otherMember, otherWraps⟩ := shares.only found there
  have same : other = keypair.recipient :=
    Recipient.eq_of_address distinct (known other otherMember) inside
      (otherWraps.address.symm.trans named)
  exact ⟨found, lookup, same ▸ otherWraps⟩

/-- Who finds an envelope is a reader. -/
theorem Shares.reads_of_find (shares : Shares objectSecret members record) {reader : Recipient}
    {envelope : RecipientEnvelope}
    (found : record.recipient reader.recipientId reader.keyEpoch reader.recipientKeyId =
      some envelope) :
    reader.address ∈ members.map Recipient.address := by
  obtain ⟨here, named⟩ := recipient_eq_some found
  obtain ⟨member, inside, wraps⟩ := shares.only envelope here
  exact List.mem_map.mpr ⟨member, inside, wraps.address.symm.trans named⟩

theorem unwrapDek_of_wraps (hpke : Hpke.OpensSealed .chaCha20Poly1305) {envelope : RecipientEnvelope}
    (wraps : Wraps objectSecret record.context keypair.recipient envelope) :
    unwrapDek record envelope keypair = .ok objectSecret := by
  obtain ⟨ephemeral, encapsulated⟩ := wraps.encapsulated
  rw [keypair.derived] at encapsulated
  simp only [unwrapDek, bind_eq_ok, mapError_eq_ok, okOr_eq_ok]
  exact ⟨_, hpke _ _ _ _ _ _ _ encapsulated, Bytes.asArray_eq_some.mpr rfl⟩

/-- A reader opens the record. -/
theorem openValidated_of_reads (aead : record.suite.OpensSealed)
    (hpke : Hpke.OpensSealed .chaCha20Poly1305) (distinct : Set.InjOn recipientKeyId keys)
    (known : ∀ member ∈ members, member.publicKey ∈ keys) {plaintext : Bytes}
    (shares : Shares objectSecret members record) (protects : Protects objectSecret plaintext record)
    (inside : keypair.recipient.publicKey ∈ keys)
    (reads : keypair.recipient.address ∈ members.map Recipient.address) :
    openValidated record keypair = .ok plaintext := by
  obtain ⟨envelope, lookup, wraps⟩ := shares.find distinct known inside reads
  obtain ⟨dataKey, commitmentKey, derived, committed, encrypted⟩ := protects
  simp only [openValidated, bind_eq_ok, okOr_eq_ok, rejectIf_eq_ok, mapError_eq_ok, not_not]
  exact ⟨envelope, lookup, objectSecret, unwrapDek_of_wraps hpke wraps, (dataKey, commitmentKey),
    derived, (), committed.symm, aead _ _ _ _ _ encrypted⟩

/-- No one else finds an envelope. -/
theorem openValidated_of_not_reads (shares : Shares objectSecret members record)
    (excluded : keypair.recipient.address ∉ members.map Recipient.address) :
    openValidated record keypair = .error .noEnvelopeForRecipient := by
  have missing : record.recipient keypair.recipient.recipientId keypair.recipient.keyEpoch
      keypair.recipient.recipientKeyId = none :=
    Option.eq_none_iff_forall_ne_some.mpr fun _ found => excluded (shares.reads_of_find found)
  rw [openValidated, missing]
  rfl

end Readers

/-- One object secret protects the plaintext and is shared with exactly the readers. -/
structure Accessible (origin : Origin) (members : List Recipient) (record : SealedRecord) : Prop where
  suite : record.suite = origin.suite
  secret : ∃ objectSecret, Shares objectSecret members record ∧
    Protects objectSecret origin.plaintext record

section Steps

variable {author : Author} {origin : Origin} {members : List Recipient}
  {record updated next : SealedRecord} {keys : Set (Vector UInt8 32)}

/-- A grant wraps the shared secret for the new reader: whoever grants has unwrapped it. -/
theorem Granted.accessible {granting : RecipientKeypair} {recipient : Recipient}
    (granted : Granted author record granting recipient updated)
    (hpke : Hpke.OpensSealed .chaCha20Poly1305) (distinct : Set.InjOn recipientKeyId keys)
    (known : ∀ member ∈ members, member.publicKey ∈ keys)
    (inside : granting.recipient.publicKey ∈ keys) (accessible : Accessible origin members record) :
    Accessible origin (recipient :: members) updated := by
  obtain ⟨suite, objectSecret, shares, protects⟩ := accessible
  obtain ⟨held, unwrapped, envelope, found, opened, wraps, permuted⟩ := granted.envelope
  obtain ⟨envelope', lookup, wraps'⟩ :=
    shares.find distinct known inside (shares.reads_of_find found)
  obtain rfl := Option.some.inj (found.symm.trans lookup)
  obtain rfl := Except.ok.inj (opened.symm.trans (unwrapDek_of_wraps hpke wraps'))
  have context : updated.context = record.context := by rw [granted.unchanged]
  refine ⟨?_, unwrapped, ⟨?_, ?_⟩, ?_⟩
  · rw [granted.unchanged]
    exact suite
  · rw [context]
    refine List.forall_mem_cons.mpr ⟨⟨envelope, permuted.mem_iff.mpr List.mem_cons_self, wraps⟩, ?_⟩
    intro reader member
    obtain ⟨older, here, wrapped⟩ := shares.every reader member
    exact ⟨older, permuted.mem_iff.mpr (List.mem_cons_of_mem _ here), wrapped⟩
  · rw [context]
    intro candidate here
    rcases List.mem_cons.mp (permuted.mem_iff.mp here) with rfl | older
    · exact ⟨recipient, List.mem_cons_self, wraps⟩
    · obtain ⟨reader, member, wrapped⟩ := shares.only candidate older
      exact ⟨reader, List.mem_cons_of_mem _ member, wrapped⟩
  · rw [granted.unchanged]
    exact protects

/-- A rekey seals again what was sealed before: whoever rekeys has opened it. -/
theorem Rekeyed.accessible {opening : RecipientKeypair} {recipients : List Recipient}
    (rekeyed : Rekeyed author record opening recipients next) (aead : origin.suite.OpensSealed)
    (hpke : Hpke.OpensSealed .chaCha20Poly1305) (distinct : Set.InjOn recipientKeyId keys)
    (known : ∀ member ∈ members, member.publicKey ∈ keys)
    (inside : opening.recipient.publicKey ∈ keys) (accessible : Accessible origin members record) :
    Accessible origin recipients next := by
  obtain ⟨suite, objectSecret, shares, protects⟩ := accessible
  obtain ⟨plaintext, fresh, opened, shares', protects'⟩ := rekeyed.secret
  simp only [Core.open, bind_eq_ok] at opened
  obtain ⟨_, -, opened⟩ := opened
  have reads : opening.recipient.address ∈ members.map Recipient.address := by
    by_contra excluded
    rw [openValidated_of_not_reads shares excluded] at opened
    cases opened
  rw [openValidated_of_reads (suite ▸ aead) hpke distinct known shares protects inside reads]
    at opened
  obtain rfl := Except.ok.inj opened
  exact ⟨rekeyed.suite.trans suite, fresh, shares', protects'⟩

end Steps

variable [Features]

/-- Along a lineage the current record stays accessible to exactly its readers. -/
theorem Lineage.accessible {author : Author} {origin : Origin} {calls : List Continuation}
    {records : List SealedRecord} {keys : Set (Vector UInt8 32)} (aead : origin.suite.OpensSealed)
    (hpke : Hpke.OpensSealed .chaCha20Poly1305) (distinct : Set.InjOn recipientKeyId keys)
    (lineage : Lineage author origin calls records)
    (inside : ∀ key ∈ participants origin calls, key ∈ keys) :
    ∀ record ∈ records.head?, Accessible origin (readers origin calls) record := by
  induction lineage with
  | sealed done =>
      rintro record ⟨⟩
      exact ⟨(seal_ok done).suite, (seal_ok done).secret⟩
  | @carriedOn calls record older call source rest next before done ih =>
      rintro next ⟨⟩
      cases call with
      | grant granting recipient =>
          simp only [participants, List.forall_mem_cons] at inside
          obtain ⟨granter, -, earlier⟩ := inside
          exact (grantRecipient_ok done).accessible hpke distinct
            (fun member here => earlier _ (readers_participate origin calls member here)) granter
            (ih earlier record rfl)
      | rekey opening context recipients indexes =>
          simp only [participants, List.forall_mem_cons, List.forall_mem_append] at inside
          obtain ⟨opener, -, earlier⟩ := inside
          exact (rekey_ok done).accessible aead hpke distinct
            (fun member here => earlier _ (readers_participate origin calls member here)) opener
            (ih earlier record rfl)

/-- A grant adds one envelope, in its place, and links and signs the record anew. Nothing
    else changes. -/
structure OneMoreEnvelope (record : SealedRecord) (recipient : Recipient) (updated : SealedRecord) :
    Prop where
  unchanged : updated = { record with
    manifestRevision := updated.manifestRevision
    previousManifestHash := updated.previousManifestHash
    recipients := updated.recipients
    signature := updated.signature }
  revision : updated.manifestRevision.toNat = record.manifestRevision.toNat + 1
  linked : updated.previousManifestHash = record.manifestHash
  envelope : ∃ envelope, updated.recipients.Perm (envelope :: record.recipients) ∧
    (envelope.recipientId, envelope.keyEpoch, envelope.recipientKeyId) = recipient.address
  sorted : updated.recipients.Pairwise fun a b => ScopeLt a.scope b.scope

omit [Features] in
theorem Granted.oneMoreEnvelope {author : Author} {record : SealedRecord}
    {granting : RecipientKeypair} {recipient : Recipient} {updated : SealedRecord}
    (granted : Granted author record granting recipient updated) :
    OneMoreEnvelope record recipient updated where
  unchanged := by
    rw [granted.succeeds.linked]
    exact granted.unchanged
  revision := granted.succeeds.revision
  linked := granted.succeeds.linked
  envelope := by
    obtain ⟨_, _, envelope, -, -, wraps, permuted⟩ := granted.envelope
    exact ⟨envelope, permuted, wraps.address⟩
  sorted := granted.issued.within.recipientsSorted

/-- End-to-end access control: after any lineage the current record opens, also from the
    wire, to what was sealed at first for its readers and for no other key pair; and a
    grant gives it one more envelope. -/
theorem Lineage.opens_for_exactly_its_readers {author : Author} {origin : Origin}
    {calls : List Continuation} {record : SealedRecord} {older : List SealedRecord}
    {keys : Set (Vector UInt8 32)} (verifies : author.Verifies) (aead : origin.suite.OpensSealed)
    (hpke : Hpke.OpensSealed .chaCha20Poly1305) (distinct : Set.InjOn recipientKeyId keys)
    (lineage : Lineage author origin calls (record :: older))
    (inside : ∀ key ∈ participants origin calls, key ∈ keys) :
    SealedRecord.decode record.encode (policyFor author.publicKey) = .ok record ∧
      (∀ keypair : RecipientKeypair, keypair.recipient.publicKey ∈ keys →
        Core.open record keypair author.publicKey =
          if keypair.recipient.address ∈ (readers origin calls).map Recipient.address
          then .ok origin.plaintext else .error .noEnvelopeForRecipient) ∧
      ∀ granting recipient source updated rest,
        grantRecipient record granting author recipient source = .ok (updated, rest) →
          OneMoreEnvelope record recipient updated := by
  have issued := lineage.issued record List.mem_cons_self
  obtain ⟨suite, objectSecret, shares, protects⟩ :=
    lineage.accessible aead hpke distinct inside record rfl
  refine ⟨issued.decodes verifies, fun keypair known => ?_, fun _ _ _ _ _ done =>
    (grantRecipient_ok done).oneMoreEnvelope⟩
  have validated : Core.open record keypair author.publicKey = openValidated record keypair := by
    rw [Core.open, issued.validates verifies]
    rfl
  rw [validated]
  split
  · next reads =>
    exact openValidated_of_reads (suite ▸ aead) hpke distinct
      (fun member here => inside _ (readers_participate origin calls member here)) shares protects
      known reads
  · next excluded => exact openValidated_of_not_reads shares excluded

end Access

section Lawful

variable [LawfulPrimitives] {author : Author} {origin : Origin} {calls : List Continuation}
  {newer older : List SealedRecord} {record : SealedRecord}

theorem Author.verifies (author : Author) : author.Verifies := LawfulPrimitives.verifies author.signingKey

theorem hpkeOpensSealed : Hpke.OpensSealed .chaCha20Poly1305 :=
  Hpke.opensSealed LawfulPrimitives.agreement (LawfulPrimitives.opensSealed _)

variable [Features]

/-- At every point of a lineage the record opens for whoever is then its reader, and has no
    envelope for a key pair of another address. -/
theorem Lineage.open_at (lineage : Lineage author origin calls (newer ++ record :: older))
    (distinct : Set.InjOn recipientKeyId {key | key ∈ participants origin calls}) (keypair : RecipientKeypair) :
    (keypair.recipient ∈ readers origin (calls.drop newer.length) →
      Core.open record keypair author.publicKey = .ok origin.plaintext) ∧
    (keypair.recipient.address ∉ (readers origin (calls.drop newer.length)).map Recipient.address →
      Core.open record keypair author.publicKey = .error .noEnvelopeForRecipient) := by
  have inside := participants_drop origin newer.length calls
  have known : ∀ reader ∈ readers origin (calls.drop newer.length),
      reader.publicKey ∈ {key | key ∈ participants origin calls} :=
    fun reader member => inside _ (readers_participate origin _ reader member)
  obtain ⟨suite, objectSecret, shares, protects⟩ :=
    lineage.before.accessible (LawfulPrimitives.opensSealed _) hpkeOpensSealed distinct inside record rfl
  have issued := lineage.issued record (by simp)
  have validated : Core.open record keypair author.publicKey = openValidated record keypair := by
    rw [Core.open, issued.validates author.verifies]
    rfl
  rw [validated]
  exact ⟨fun reads => openValidated_of_reads (LawfulPrimitives.opensSealed _) hpkeOpensSealed distinct known shares
    protects (known _ reads) (List.mem_map_of_mem reads), openValidated_of_not_reads shares⟩

end Lawful

section SampleAccess

attribute [local instance] lineagePrimitives defaultFeatures

theorem sample_distinct : Set.InjOn recipientKeyId {alicePublicKey, bobPublicKey} := by
  have apart : recipientKeyId alicePublicKey ≠ recipientKeyId bobPublicKey := by decide +kernel
  rintro a (rfl | rfl) b (rfl | rfl) same
  · rfl
  · exact absurd same apart
  · exact absurd same.symm apart
  · rfl

/-- Alice, Bob and the ephemeral keys. -/
def sampleSecrets : List StaticSecret := [1, 2, 5, 6, 10].map fun fill => ⟨.replicate 32 fill⟩

theorem sample_symmetric : lineageRecording.Symmetric sampleSecrets where
  scalars := by decide +kernel
  points := by decide +kernel
  products := by decide +kernel

theorem sample_decipherable : lineageRecording.Decipherable := by decide +kernel

/-- The recorded primitives keep the laws of the real ones. -/
@[reducible] def sampleLawful : LawfulPrimitives := lineageRecording.lawful sample_decipherable sample_symmetric

theorem alice_key : alice.recipient.publicKey = alicePublicKey := by decide +kernel

theorem bob_key : bob.recipient.publicKey = bobPublicKey := by decide +kernel

theorem sample_participants :
    ∀ key ∈ participants sampleOrigin sampleCalls, key ∈ ({alicePublicKey, bobPublicKey} : Set (Vector UInt8 32)) := by
  simp [participants, sampleOrigin, sampleCalls, alice_key, bob_key]

theorem sample_fingerprints : Set.InjOn recipientKeyId {key | key ∈ participants sampleOrigin sampleCalls} :=
  sample_distinct.mono sample_participants

/-- After the rekey the record opens for Bob, and no longer for Alice. -/
theorem rekeyed_record_opens_for_bob_alone :
    Core.open rekeyedRecord bob sampleAuthor.publicKey = .ok (asBytes "hi") ∧
      Core.open rekeyedRecord alice sampleAuthor.publicKey = .error .noEnvelopeForRecipient := by
  have opens := Recording.opensSealed sample_decipherable
  obtain ⟨-, access, -⟩ := Lineage.opens_for_exactly_its_readers sample_verifies (opens _)
    (Hpke.opensSealed (Recording.agreement sample_symmetric) (opens _)) sample_distinct sample_lineage sample_participants
  refine ⟨(access bob (bob_key ▸ .inr rfl)).trans ?_, (access alice (alice_key ▸ .inl rfl)).trans ?_⟩
  · exact if_pos (List.mem_singleton_self _)
  · exact if_neg (by decide +kernel)

end SampleAccess

end Blindplane.Core
