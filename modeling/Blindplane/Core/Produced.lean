import Blindplane.Core.Sealing

/-! # What the producers produce

One lemma for each producer says everything a success of it means: what the new record
shares with the old one, whose signature it carries, and what object secret its
envelopes wrap. Nothing later looks into the producers again.
-/

namespace Blindplane.Core

open Lib Lib.Utf8 Lib.Checked Crypto Wire

variable [ClientPrimitives]

/-- What the author signs verifies under the author's key. -/
def Author.Verifies (author : Author) : Prop :=
  ∀ message, Primitives.verifyStrict author.publicKey message
    (ClientPrimitives.sign author.signingKey message) = .ok ()

/-- A record within the default limits, under the author's key and signature. -/
structure Issued (author : Author) (record : SealedRecord) : Prop where
  signer : record.signerPublicKey = author.publicKey
  signature : record.signature =
    (ClientPrimitives.sign author.signingKey record.signingBytes).toList
  within : WithinLimits (policyFor author.publicKey) record

theorem Issued.validates {author : Author} {record : SealedRecord} (issued : Issued author record)
    (verifies : author.Verifies) : record.validate (policyFor author.publicKey) = .ok () := by
  refine validate_eq_ok.mpr ⟨issued.within, ⟨_, Bytes.asArray_eq_some.mpr issued.signature, ?_⟩, ?_⟩
  · rw [issued.signer]
    exact verifies _
  · rw [issued.signer]
    exact List.mem_singleton_self _

/-- The envelope wraps the object secret for the reader, in the context. -/
structure Wraps (objectSecret : Vector UInt8 DEK_LEN) (context : RecordContext) (reader : Recipient)
    (envelope : RecipientEnvelope) : Prop where
  recipientId : envelope.recipientId = reader.recipientId
  keyEpoch : envelope.keyEpoch = reader.keyEpoch
  recipientKeyId : envelope.recipientKeyId = reader.recipientKeyId
  encapsulated : ∃ ephemeral, Hpke.sealWithEphemeral .chaCha20Poly1305 ephemeral reader.publicKey none
    (hpkeInfo context reader) (hpkeAad context reader) objectSecret.toList =
      .ok (envelope.encapsulatedKey, envelope.wrappedDek)

/-- The envelopes of the record wrap the object secret for the readers, and for no one
    else. -/
structure Shares (objectSecret : Vector UInt8 DEK_LEN) (readers : List Recipient)
    (record : SealedRecord) : Prop where
  every : ∀ reader ∈ readers, ∃ envelope ∈ record.recipients,
    Wraps objectSecret record.context reader envelope
  only : ∀ envelope ∈ record.recipients, ∃ reader ∈ readers,
    Wraps objectSecret record.context reader envelope

/-- The keys of the object secret are committed to and seal the plaintext. -/
def Protects (objectSecret : Vector UInt8 DEK_LEN) (plaintext : Bytes) (record : SealedRecord) : Prop :=
  ∃ dataKey commitmentKey,
    deriveObjectKeys objectSecret record.context = .ok (dataKey, commitmentKey) ∧
    record.keyCommitment = commitKey commitmentKey record.suite record.context ∧
    ClientPrimitives.aeadSeal record.suite dataKey record.nonce record.payloadAad plaintext =
      .ok record.ciphertext

/-- The next record carries on the one before it. -/
structure Succeeds (previous next : SealedRecord) : Prop where
  tenant : next.context.tenant = previous.context.tenant
  objectId : next.context.objectId = previous.context.objectId
  field : next.context.field = previous.context.field
  version : previous.context.version ≤ next.context.version
  epoch : previous.context.epoch ≤ next.context.epoch
  signer : next.signerPublicKey = previous.signerPublicKey
  linked : next.previousManifestHash = previous.manifestHash
  revision : next.manifestRevision.toNat = previous.manifestRevision.toNat + 1

omit [ClientPrimitives] in
theorem checkedAdd_eq_some {a b : UInt64} (added : checkedAdd a 1 = some b) :
    b.toNat = a.toNat + 1 := by
  have one : (1 : UInt64).toNat = 1 := rfl
  unfold checkedAdd at added
  split at added
  · next below =>
    obtain rfl := Option.some.inj added
    rw [UInt64.toNat_add, one]
    exact Nat.mod_eq_of_lt (one ▸ below)
  · cases added

theorem wrapDek_ok {reader : Recipient} {objectSecret : Vector UInt8 DEK_LEN}
    {context : RecordContext} {source rest : Entropy} {envelope : RecipientEnvelope}
    (wrapped : wrapDek reader objectSecret context source = .ok (envelope, rest)) :
    Wraps objectSecret context reader envelope := by
  obtain ⟨⟨encapsulatedKey, wrappedDek⟩, mid, encapsulated, done⟩ := Process.bind_eq_ok.mp wrapped
  obtain ⟨rfl, -⟩ := Process.pure_eq_ok.mp done
  obtain ⟨ephemeral, _, -, computed⟩ := Process.bind_eq_ok.mp (Process.mapError_eq_ok.mp encapsulated)
  exact
    { recipientId := rfl
      keyEpoch := rfl
      recipientKeyId := rfl
      encapsulated := ⟨ephemeral, (Process.embed_eq_ok.mp computed).1⟩ }

/-- A validated record is its pinned signer's. -/
theorem signer_of_validate {signer : Vector UInt8 32} {record : SealedRecord}
    (valid : (record.validate (policyFor signer)).mapError CryptoError.wire = .ok ()) :
    record.signerPublicKey = signer :=
  List.mem_singleton.mp (validate_eq_ok.mp (mapError_eq_ok.mp valid)).2.2

variable [Features]

theorem validateOwn_issued {author : Author} {record : SealedRecord} {u : Unit}
    (checked : validateOwn (author.sign record) (policyFor author.publicKey) = .ok u) :
    Issued author (author.sign record) where
  signer := rfl
  signature := rfl
  within := by
    unfold validateOwn at checked
    split at checked
    · exact (validate_eq_ok.mp (mapError_eq_ok.mp checked)).1
    · simp only [bind_eq_ok, mapError_eq_ok, SealedRecord.validateShape] at checked
      obtain ⟨_, shape, -⟩ := checked
      exact validateLimits_eq_ok.mp shape

/-- A first record of the plaintext, under an object secret of its own. -/
structure Sealed (author : Author) (context : RecordContext) (plaintext : Bytes)
    (recipients : List Recipient) (suite : Suite) (record : SealedRecord) : Prop where
  issued : Issued author record
  context : record.context = context
  suite : record.suite = suite
  revision : record.manifestRevision = 1
  secret : ∃ objectSecret, Shares objectSecret recipients record ∧
    Protects objectSecret plaintext record

theorem seal_ok {author : Author} {context : RecordContext} {plaintext : Bytes}
    {recipients : List Recipient} {indexes : List BlindIndex} {suite : Suite}
    {source rest : Entropy} {record : SealedRecord}
    (done : Core.seal author context plaintext recipients indexes suite source =
      .ok (record, rest)) :
    Sealed author context plaintext recipients suite record := by
  simp only [Core.seal, Process.bind_eq_ok, Process.embed_eq_ok, Process.ensure_eq_ok,
    Process.pure_eq_ok, mapError_eq_ok] at done
  obtain ⟨_, _, ⟨-, rfl⟩, _, _, ⟨-, rfl⟩, _, _, ⟨-, rfl⟩, objectSecret, _, -,
    ⟨dataKey, commitmentKey⟩, _, ⟨derived, rfl⟩, nonce, _, -, ciphertext, _, ⟨encrypted, rfl⟩,
    envelopes, _, wrapped, _, _, ⟨checked, rfl⟩, rfl, rfl⟩ := done
  obtain ⟨every, only⟩ := Process.each_related wrapped fun _ _ _ _ => wrapDek_ok
  simp only [sortByScope, List.mem_insertionSort] at every only
  exact
    { issued := validateOwn_issued checked
      context := rfl
      suite := rfl
      revision := rfl
      secret := ⟨objectSecret, ⟨every, only⟩, dataKey, commitmentKey, derived, rfl, encrypted⟩ }

/-- A record with one more envelope, and nothing else new but its link and signature. -/
structure Granted (author : Author) (record : SealedRecord) (granting : RecipientKeypair)
    (newRecipient : Recipient) (updated : SealedRecord) : Prop where
  issued : Issued author updated
  succeeds : Succeeds record updated
  unchanged : updated = { record with
    manifestRevision := updated.manifestRevision
    previousManifestHash := record.manifestHash
    recipients := updated.recipients
    signature := updated.signature }
  envelope : ∃ held objectSecret envelope,
    record.recipient granting.recipient.recipientId granting.recipient.keyEpoch
      granting.recipient.recipientKeyId = some held ∧
    unwrapDek record held granting = .ok objectSecret ∧
    Wraps objectSecret record.context newRecipient envelope ∧
    updated.recipients.Perm (envelope :: record.recipients)

theorem grantRecipient_ok {record : SealedRecord} {granting : RecipientKeypair} {author : Author}
    {newRecipient : Recipient} {source rest : Entropy} {updated : SealedRecord}
    (done : grantRecipient record granting author newRecipient source = .ok (updated, rest)) :
    Granted author record granting newRecipient updated := by
  simp only [grantRecipient, Process.bind_eq_ok, Process.embed_eq_ok, Process.ensure_eq_ok,
    Process.pure_eq_ok, okOr_eq_ok] at done
  obtain ⟨_, _, ⟨valid, rfl⟩, _, _, ⟨-, rfl⟩, held, _, ⟨found, rfl⟩, objectSecret, _,
    ⟨unwrapped, rfl⟩, revision, _, ⟨added, rfl⟩, envelope, _, wrapped, _, _, ⟨checked, rfl⟩,
    rfl, rfl⟩ := done
  have signer := signer_of_validate valid
  exact
    { issued := validateOwn_issued checked
      succeeds :=
        { tenant := rfl
          objectId := rfl
          field := rfl
          version := UInt64.le_refl _
          epoch := UInt64.le_refl _
          signer := signer.symm
          linked := rfl
          revision := checkedAdd_eq_some added }
      unchanged := by simp only [Author.sign, signer]
      envelope := ⟨held, objectSecret, envelope, found, unwrapped, wrapDek_ok wrapped,
        (List.perm_insertionSort _ _).trans (List.perm_append_singleton _ _)⟩ }

/-- A record of what the old one opens to, under an object secret of its own. -/
structure Rekeyed (author : Author) (record : SealedRecord) (opening : RecipientKeypair)
    (recipients : List Recipient) (next : SealedRecord) : Prop where
  issued : Issued author next
  succeeds : Succeeds record next
  suite : next.suite = record.suite
  secret : ∃ plaintext objectSecret, Core.open record opening author.publicKey = .ok plaintext ∧
    Shares objectSecret recipients next ∧ Protects objectSecret plaintext next

theorem rekey_ok {record : SealedRecord} {opening : RecipientKeypair} {author : Author}
    {nextContext : RecordContext} {recipients : List Recipient} {indexes : List BlindIndex}
    {source rest : Entropy} {next : SealedRecord}
    (done : rekey record opening author nextContext recipients indexes source = .ok (next, rest)) :
    Rekeyed author record opening recipients next := by
  simp only [rekey, Process.bind_eq_ok, Process.embed_eq_ok, Process.ensure_eq_ok,
    Process.pure_eq_ok, okOr_eq_ok, not_or, not_not, UInt64.not_le] at done
  obtain ⟨_, _, ⟨⟨tenant, objectId, field, epoch, version⟩, rfl⟩, plaintext, _, ⟨opened, rfl⟩,
    fresh, _, sealed, revision, _, ⟨added, rfl⟩, _, _, ⟨checked, rfl⟩, rfl, rfl⟩ := done
  obtain ⟨-, context, suite, -, objectSecret, shares, protects⟩ := seal_ok sealed
  have signer : record.signerPublicKey = author.publicKey := by
    simp only [Core.open, bind_eq_ok] at opened
    obtain ⟨_, valid, -⟩ := opened
    exact signer_of_validate valid
  exact
    { issued := validateOwn_issued checked
      succeeds :=
        { tenant := (congrArg RecordContext.tenant context).trans tenant
          objectId := (congrArg RecordContext.objectId context).trans objectId
          field := (congrArg RecordContext.field context).trans field
          version := by
            have kept := congrArg RecordContext.version context
            exact UInt64.le_of_lt (kept ▸ version)
          epoch := by
            have kept := congrArg RecordContext.epoch context
            exact UInt64.le_of_lt (kept ▸ epoch)
          signer := signer.symm
          linked := rfl
          revision := checkedAdd_eq_some added }
      suite
      secret := ⟨plaintext, objectSecret, opened, ⟨shares.every, shares.only⟩, protects⟩ }

end Blindplane.Core
