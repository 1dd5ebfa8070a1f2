import Blindplane.Core.Lineage
import Blindplane.Crypto.Aead.Suites
import Blindplane.Lib.KeyedSort

/-! # What a seal admits

A seal looks at its inputs twice, first in `preflight` and after sorting for repetitions, and
then in the limits of the record it has signed. Whatever passes the first look is within the
limits of the second, so that no input is refused after secrets were drawn for it.
-/

namespace Blindplane.Core

open Lib Lib.Utf8 Lib.Bytes Lib.Checked Crypto Wire Std

section Preflight

variable [Primitives]

/-- Everything `preflight` looks at is within the limits. -/
structure Admitted (policy : ValidationPolicy) (context : RecordContext) (plaintextLen : Nat)
    (recipients : List Recipient) (indexes : List BlindIndex) : Prop where
  context : ContextWithin policy context
  payload : plaintextLen + TAG_LEN ≤ policy.maxCiphertextBytes.toNat
  recipientsMin : 0 < recipients.length
  recipientsMax : recipients.length ≤ policy.maxRecipients.toNat
  recipients : ∀ recipient ∈ recipients,
    LabelWithin policy.maxIdentifierBytes recipient.recipientId ∧ recipient.keyEpoch ≠ 0
  indexesMax : indexes.length ≤ policy.maxIndexes.toNat
  indexes : ∀ index ∈ indexes, IndexWithin policy index

omit [Primitives] in
theorem labelAdmitted_iff {value : String} {max : Usize} :
    ¬ ((asBytes value).length = 0 ∨ (asBytes value).length > max.toNat) ↔ LabelWithin max value := by
  unfold LabelWithin
  omega

omit [Primitives] in
theorem contextAdmitted_iff {policy : ValidationPolicy} {context : RecordContext} :
    ¬ ((∃ value ∈ [context.tenant, context.objectId, context.field], (asBytes value).length = 0 ∨
        (asBytes value).length > policy.maxIdentifierBytes.toNat) ∨
      context.epoch = 0 ∨ context.version = 0 ∨ context.schemaVersion = 0) ↔ ContextWithin policy context := by
  simp only [List.exists_mem_cons_iff, List.not_mem_nil, false_and, exists_false, or_false]
  rw [not_or, not_or, labelAdmitted_iff, not_or, labelAdmitted_iff, labelAdmitted_iff, not_or, not_or]
  constructor
  · rintro ⟨⟨tenant, objectId, field⟩, epoch, version, schemaVersion⟩
    exact ⟨tenant, objectId, field, epoch, version, schemaVersion⟩
  · rintro ⟨tenant, objectId, field, epoch, version, schemaVersion⟩
    exact ⟨⟨tenant, objectId, field⟩, epoch, version, schemaVersion⟩

/-- A recipient carries the fingerprint of its key, so that only its scope can be refused. -/
theorem recipientAdmitted_iff {max : Usize} {recipient : Recipient} :
    ¬ ((asBytes recipient.recipientId).length = 0 ∨ (asBytes recipient.recipientId).length > max.toNat ∨
      recipient.keyEpoch = 0 ∨ recipientKeyId recipient.publicKey ≠ recipient.recipientKeyId) ↔
      LabelWithin max recipient.recipientId ∧ recipient.keyEpoch ≠ 0 := by
  rw [← or_assoc, not_or, labelAdmitted_iff, not_or, ← recipient.fingerprint]
  simp

omit [Primitives] in
theorem indexAdmitted_iff {policy : ValidationPolicy} {index : BlindIndex} :
    ¬ ((asBytes index.label).length = 0 ∨ (asBytes index.label).length > policy.maxIdentifierBytes.toNat ∨
      (asBytes index.canonicalizerId).length = 0 ∨
      (asBytes index.canonicalizerId).length > policy.maxIdentifierBytes.toNat ∨
      index.schemaVersion = 0 ∨ index.canonicalizerVersion = 0 ∨ index.keyEpoch = 0) ↔ IndexWithin policy index := by
  rw [← or_assoc, not_or, labelAdmitted_iff, ← or_assoc, not_or, labelAdmitted_iff, not_or, not_or]
  constructor
  · rintro ⟨label, canonicalizerId, schemaVersion, canonicalizerVersion, keyEpoch⟩
    exact ⟨label, canonicalizerId, keyEpoch, schemaVersion, canonicalizerVersion⟩
  · rintro ⟨label, canonicalizerId, keyEpoch, schemaVersion, canonicalizerVersion⟩
    exact ⟨label, canonicalizerId, schemaVersion, canonicalizerVersion, keyEpoch⟩

/-- Preflight holds its inputs to the limits of the record, whoever signs it. -/
theorem preflight_eq_ok {signer : Vector UInt8 32} {context : RecordContext} {plaintextLen : Nat}
    {recipients : List Recipient} {indexes : List BlindIndex} {u : Unit} :
    preflight context plaintextLen recipients indexes = .ok u ↔
      Admitted (policyFor signer) context plaintextLen recipients indexes := by
  have limit : (policyFor signer).maxCiphertextBytes.toNat = 8388608 := rfl
  have payload_iff : ¬ min (plaintextLen + TAG_LEN) (2 ^ 64 - 1) > (policyFor signer).maxCiphertextBytes.toNat ↔
      plaintextLen + TAG_LEN ≤ (policyFor signer).maxCiphertextBytes.toNat := by
    rw [limit]
    omega
  simp only [preflight, bind_eq_ok, rejectIf_eq_ok, exists_const]
  constructor
  · rintro ⟨scope, payload, some, counts, readers, definitions⟩
    obtain ⟨recipientsMax, indexesMax⟩ := not_or.mp counts
    exact
      { context := contextAdmitted_iff.mp scope
        payload := payload_iff.mp payload
        recipientsMin := Nat.pos_of_ne_zero some
        recipientsMax := Nat.not_lt.mp recipientsMax
        recipients := fun recipient inside =>
          recipientAdmitted_iff.mp fun refused => readers ⟨recipient, inside, refused⟩
        indexesMax := Nat.not_lt.mp indexesMax
        indexes := fun index inside =>
          indexAdmitted_iff.mp fun refused => definitions ⟨index, inside, refused⟩ }
  · intro admitted
    have scope := contextAdmitted_iff.mpr admitted.context
    refine ⟨scope, payload_iff.mpr admitted.payload,
      Nat.ne_of_gt admitted.recipientsMin,
      not_or.mpr ⟨Nat.not_lt.mpr admitted.recipientsMax, Nat.not_lt.mpr admitted.indexesMax⟩, ?_, ?_⟩
    · rintro ⟨recipient, inside, refused⟩
      exact recipientAdmitted_iff.mpr (admitted.recipients recipient inside) refused
    · rintro ⟨index, inside, refused⟩
      exact indexAdmitted_iff.mpr (admitted.indexes index inside) refused

end Preflight

section Machine

variable [ClientPrimitives]

/-- The payload ciphers are the crate's, on a machine. -/
def SealsOn (target : Target) : Prop :=
  ∀ (suite : Suite) (key : Vector UInt8 32) (nonce aad plaintext : Bytes),
    ClientPrimitives.aeadSeal suite key nonce aad plaintext =
      (suite.«seal» target key nonce aad plaintext : Id (Except AeadError Bytes))

namespace SealsOn

variable {target : Target} {suite : Suite} {key : Vector UInt8 32} {nonce aad plaintext ciphertext : Bytes}

theorem aeadSeal_eq (onMachine : SealsOn target) :
    ClientPrimitives.aeadSeal suite key nonce aad plaintext =
      if nonce.length = suite.nonceLen ∧ suite.isAvailable target then
        .ok (suite.encrypt key nonce plaintext ++ suite.tagOf key nonce aad (suite.encrypt key nonce plaintext))
      else .error .unsupported :=
  (onMachine suite key nonce aad plaintext).trans (suite.seal_eq target key nonce aad plaintext Id)

/-- A ciphertext is longer than its plaintext by the tag. -/
theorem length (onMachine : SealsOn target)
    (sealed : ClientPrimitives.aeadSeal suite key nonce aad plaintext = .ok ciphertext) :
    ciphertext.length = plaintext.length + TAG_LEN := by
  rw [onMachine.aeadSeal_eq] at sealed
  split at sealed
  · cases sealed
    rw [List.length_append, Suite.tagOf_length, Suite.encrypt, xorStream_length]
  · cases sealed

/-- A suite the machine can run seals every plaintext. -/
theorem seals (onMachine : SealsOn target) (available : suite.isAvailable target = true)
    (nonce : Vector UInt8 suite.nonceLen) :
    ∃ ciphertext, ClientPrimitives.aeadSeal suite key nonce.toList aad plaintext = .ok ciphertext := by
  have able : nonce.toList.length = suite.nonceLen ∧ suite.isAvailable target = true :=
    ⟨nonce.length_toList, available⟩
  rw [onMachine.aeadSeal_eq, if_pos able]
  exact ⟨_, rfl⟩

end SealsOn

/-- The secret keys of an object can always be derived: they are one block each. -/
theorem deriveObjectKeys_ok (objectSecret : Vector UInt8 DEK_LEN) (context : RecordContext) :
    ∃ keys, deriveObjectKeys objectSecret context = .ok keys :=
  ⟨_, rfl⟩

/-- A reader's envelope is within the limits. -/
theorem Wraps.within {target : Target} (onMachine : SealsOn target) {policy : ValidationPolicy}
    {objectSecret : Vector UInt8 DEK_LEN} {context : RecordContext} {reader : Recipient} {envelope : RecipientEnvelope}
    (wraps : Wraps objectSecret context reader envelope)
    (admitted : LabelWithin policy.maxIdentifierBytes reader.recipientId ∧ reader.keyEpoch ≠ 0) :
    EnvelopeWithin policy envelope := by
  obtain ⟨ephemeral, encapsulated⟩ := wraps.encapsulated
  simp only [Hpke.sealWithEphemeral, bind_eq_ok, okOr_eq_ok, mapError_eq_ok, pure_eq_ok, Prod.mk.injEq]
    at encapsulated
  obtain ⟨_, -, _, -, _, -, _, -, sealed, encrypted, encapsulatedKey, wrappedDek⟩ := encapsulated
  exact
    { recipientId := wraps.recipientId ▸ admitted.1
      keyEpoch := wraps.keyEpoch ▸ admitted.2
      encapsulatedKey := by rw [← encapsulatedKey, Vector.length_toList, X25519_KEY_LEN]
      wrappedDek := by rw [← wrappedDek, onMachine.length encrypted, Vector.length_toList, DEK_LEN, TAG_LEN,
        WRAPPED_DEK_LEN] }

end Machine

section Order

theorem repeatsScope_iff {α : Type} (scope : α → String × UInt64) {items : List α} :
    RepeatsScope scope (sortByScope scope items) ↔ ¬ (items.map scope).Nodup :=
  KeyedSort.repeats_iff scopeOrder scope

theorem sortByScope_strict {α : Type} {scope : α → String × UInt64} {items : List α}
    (distinct : (items.map scope).Nodup) :
    (sortByScope scope items).Pairwise fun left right => ScopeLt (scope left) (scope right) :=
  KeyedSort.sortBy_strict_of_nodup scopeOrder scope distinct

theorem sortByScope_perm {α : Type} (scope : α → String × UInt64) (items : List α) :
    (sortByScope scope items).Perm items :=
  KeyedSort.sortBy_perm scopeOrder scope items

variable [ClientPrimitives]

/-- Envelopes are in the order of their readers. -/
theorem Wraps.ascending {objectSecret : Vector UInt8 DEK_LEN} {context : RecordContext} {readers : List Recipient}
    {envelopes : List RecipientEnvelope} (wraps : List.Forall₂ (Wraps objectSecret context) readers envelopes)
    (ascending : readers.Pairwise fun left right => ScopeLt left.scope right.scope) :
    envelopes.Pairwise fun left right => ScopeLt left.scope right.scope := by
  have scopes : readers.map Recipient.scope = envelopes.map RecipientEnvelope.scope := by
    rw [← List.forall₂_eq_eq_eq, List.forall₂_map_left_iff, List.forall₂_map_right_iff]
    refine wraps.imp fun reader envelope wraps => ?_
    rw [Recipient.scope, RecipientEnvelope.scope, wraps.recipientId, wraps.keyEpoch]
  rw [← List.pairwise_map (R := ScopeLt), ← scopes, List.pairwise_map]
  exact ascending

end Order

section Sealing

variable [ClientPrimitives]

/-- What a seal builds and signs. -/
def firstRecord (author : Author) (context : RecordContext) (suite : Suite) (keyCommitment : Vector UInt8 32)
    (nonce ciphertext : Bytes) (recipients : List RecipientEnvelope) (indexes : List BlindIndex) : SealedRecord :=
  author.sign
    { formatVersion := FORMAT_VERSION
      suite
      context
      manifestRevision := 1
      previousManifestHash := .replicate 32 0
      keyCommitment
      nonce
      ciphertext
      recipients
      indexes
      signerPublicKey := author.publicKey
      signature := List.replicate 64 0 }

variable {author : Author} {context : RecordContext} {plaintext : Bytes} {recipients : List Recipient}
  {indexes : List BlindIndex} {suite : Suite}

/-- What was admitted stays within the limits of the record. -/
theorem firstRecord_within {target : Target} (onMachine : SealsOn target) (author : Author)
    (admitted : Admitted (policyFor author.publicKey) context plaintext.length recipients indexes)
    (readers : (recipients.map Recipient.scope).Nodup) (definitions : (indexes.map BlindIndex.scope).Nodup)
    {objectSecret : Vector UInt8 DEK_LEN} {dataKey : Vector UInt8 32} (keyCommitment : Vector UInt8 32)
    {nonce : Vector UInt8 suite.nonceLen} {aad ciphertext : Bytes} {envelopes : List RecipientEnvelope}
    (encrypted : ClientPrimitives.aeadSeal suite dataKey nonce.toList aad plaintext = .ok ciphertext)
    (wraps : List.Forall₂ (Wraps objectSecret context) (sortByScope Recipient.scope recipients) envelopes) :
    WithinLimits (policyFor author.publicKey)
      (firstRecord author context suite keyCommitment nonce.toList ciphertext envelopes
        (sortByScope BlindIndex.scope indexes)) := by
  have grown := onMachine.length encrypted
  have payload := admitted.payload
  have count : envelopes.length = recipients.length :=
    wraps.length_eq.symm.trans (sortByScope_perm _ _).length_eq
  have indexCount := (sortByScope_perm BlindIndex.scope indexes).length_eq
  exact
    { formatVersion := rfl
      context := admitted.context
      manifest := ⟨(by decide : (1 : UInt64) ≠ 0), ⟨fun _ => rfl, fun _ => rfl⟩⟩
      nonce := nonce.length_toList
      ciphertextMin := by
        show TAG_LEN ≤ ciphertext.length
        omega
      ciphertextMax := by
        show ciphertext.length ≤ _
        omega
      recipientsMin := count ▸ admitted.recipientsMin
      recipientsMax := count ▸ admitted.recipientsMax
      envelopes := by
        intro envelope member
        obtain ⟨reader, inside, wrapped⟩ := (Process.forall₂_mem wraps).2 envelope member
        exact wrapped.within onMachine (admitted.recipients reader ((sortByScope_perm _ _).mem_iff.mp inside))
      recipientsSorted := Wraps.ascending wraps (sortByScope_strict readers)
      indexesMax := indexCount ▸ admitted.indexesMax
      indexes := fun index inside => admitted.indexes index ((sortByScope_perm _ _).mem_iff.mp inside)
      indexesSorted := sortByScope_strict definitions
      signature := Vector.length_toList }

/-- Everything random in a seal: the object secret, the nonce, and an envelope for each of the
    sorted readers. -/
def Draws (context : RecordContext) (recipients : List Recipient) (suite : Suite) (source rest : Entropy)
    (objectSecret : Vector UInt8 DEK_LEN) (nonce : Vector UInt8 suite.nonceLen) (envelopes : List RecipientEnvelope) :
    Prop :=
  ∃ later last,
    Entropy.fill CryptoError.randomness 32 source = .ok (objectSecret, later) ∧
    Entropy.fill CryptoError.randomness suite.nonceLen later = .ok (nonce, last) ∧
    Process.each (fun recipient => wrapDek recipient objectSecret context) (sortByScope Recipient.scope recipients) last =
      .ok (envelopes, rest)

theorem Draws.wraps {source rest : Entropy} {objectSecret : Vector UInt8 DEK_LEN} {nonce : Vector UInt8 suite.nonceLen}
    {envelopes : List RecipientEnvelope} (draws : Draws context recipients suite source rest objectSecret nonce envelopes) :
    List.Forall₂ (Wraps objectSecret context) (sortByScope Recipient.scope recipients) envelopes := by
  obtain ⟨_, _, -, -, wrapped⟩ := draws
  exact Process.each_forall₂ wrapped fun _ _ _ _ => wrapDek_ok

variable [Features]

/-- A seal returns a record exactly when each of its steps does its part. -/
theorem seal_eq_ok {source rest : Entropy} {record : SealedRecord} :
    Core.seal author context plaintext recipients indexes suite source = .ok (record, rest) ↔
      (preflight context plaintext.length recipients indexes = .ok () ∧
        (recipients.map Recipient.scope).Nodup ∧ (indexes.map BlindIndex.scope).Nodup) ∧
      ∃ objectSecret dataKey commitmentKey nonce ciphertext envelopes,
        Draws context recipients suite source rest objectSecret nonce envelopes ∧
        deriveObjectKeys objectSecret context = .ok (dataKey, commitmentKey) ∧
        ClientPrimitives.aeadSeal suite dataKey nonce.toList (payloadAad suite context) plaintext = .ok ciphertext ∧
        record = firstRecord author context suite (commitKey commitmentKey suite context) nonce.toList ciphertext
          envelopes (sortByScope BlindIndex.scope indexes) ∧
        validateOwn record (policyFor author.publicKey) = .ok () := by
  simp only [Core.seal, Process.bind_eq_ok, Process.embed_eq_ok, Process.ensure_eq_ok, Process.pure_eq_ok,
    mapError_eq_ok, repeatsScope_iff, not_not]
  constructor
  · rintro ⟨_, _, ⟨admitted, rfl⟩, _, _, ⟨readers, rfl⟩, _, _, ⟨definitions, rfl⟩, objectSecret, later, first,
      ⟨dataKey, commitmentKey⟩, _, ⟨derived, rfl⟩, nonce, last, second, ciphertext, _, ⟨encrypted, rfl⟩, envelopes, _,
      wrapped, _, _, ⟨checked, rfl⟩, rfl, rfl⟩
    exact ⟨⟨admitted, readers, definitions⟩, objectSecret, dataKey, commitmentKey, nonce, ciphertext, envelopes,
      ⟨later, last, first, second, wrapped⟩, derived, encrypted, rfl, checked⟩
  · rintro ⟨⟨admitted, readers, definitions⟩, objectSecret, dataKey, commitmentKey, nonce, ciphertext, envelopes,
      ⟨later, last, first, second, wrapped⟩, derived, encrypted, rfl, checked⟩
    exact ⟨(), _, ⟨admitted, rfl⟩, (), _, ⟨readers, rfl⟩, (), _, ⟨definitions, rfl⟩, objectSecret, later, first,
      (dataKey, commitmentKey), _, ⟨derived, rfl⟩, nonce, last, second, ciphertext, _, ⟨encrypted, rfl⟩, envelopes, _,
      wrapped, (), _, ⟨checked, rfl⟩, rfl, rfl⟩

/-- A record within the limits, under the author's key and a signature that verifies where it
    is checked, passes the author's own check. -/
theorem validateOwn_ok {record : SealedRecord} (within : WithinLimits (policyFor author.publicKey) record)
    (signer : record.signerPublicKey = author.publicKey)
    (verifies : Features.faultResistant = true → SignatureVerifies record) :
    validateOwn record (policyFor author.publicKey) = .ok () := by
  have pinned : record.signerPublicKey ∈ (policyFor author.publicKey).allowedSigners :=
    signer ▸ List.mem_singleton_self _
  unfold validateOwn
  split
  · next resistant => exact mapError_eq_ok.mpr (validate_eq_ok.mpr ⟨within, verifies resistant, pinned⟩)
  · simp only [bind_eq_ok, mapError_eq_ok, rejectIf_eq_ok, SealedRecord.validateShape, exists_const]
    refine ⟨(), validateLimits_eq_ok.mpr within, List.ne_nil_of_mem pinned, ?_⟩
    simpa using pinned

section Refusals

variable {wire : WireError}

omit [ClientPrimitives] [Features] in
theorem preflight_ne_wire [Primitives] {recipients : List Recipient} {plaintextLen : Nat} :
    preflight context plaintextLen recipients indexes ≠ .error (.wire wire) := by
  have raises : Raises (· ≠ CryptoError.wire wire) (preflight context plaintextLen recipients indexes) :=
    (Raises.rejectIf nofun).bind fun _ _ => (Raises.rejectIf nofun).bind fun _ _ =>
      (Raises.rejectIf nofun).bind fun _ _ => (Raises.rejectIf nofun).bind fun _ _ =>
      (Raises.rejectIf nofun).bind fun _ _ => .rejectIf nofun
  exact fun failed => raises _ failed rfl

omit [ClientPrimitives] [Features] in
theorem fill_ne_wire {n : Nat} {source : Entropy} :
    Entropy.fill CryptoError.randomness n source ≠ .error (.wire wire) := by
  unfold Entropy.fill
  split <;> nofun

omit [Features] in
theorem wrapDek_ne_wire {reader : Recipient} {objectSecret : Vector UInt8 DEK_LEN} {source : Entropy} :
    wrapDek reader objectSecret context source ≠ .error (.wire wire) := by
  simp only [wrapDek, ne_eq, Process.bind_eq_error, Process.mapError_eq_error, Process.pure_ne_error, reduceCtorEq,
    and_false, exists_false, or_false, not_false_eq_true]

omit [Features] in
theorem envelopes_ne_wire {readers : List Recipient} {objectSecret : Vector UInt8 DEK_LEN} {source : Entropy} :
    Process.each (fun recipient => wrapDek recipient objectSecret context) readers source ≠ .error (.wire wire) := by
  intro failed
  obtain ⟨_, -, _, refused⟩ := Process.error_of_each failed
  exact wrapDek_ne_wire refused

end Refusals

omit [Features] in
theorem Author.Verifies.firstRecord {author : Author} (verifies : author.Verifies) {keyCommitment : Vector UInt8 32}
    {nonce ciphertext : Bytes} {envelopes : List RecipientEnvelope} :
    SignatureVerifies (firstRecord author context suite keyCommitment nonce ciphertext envelopes indexes) :=
  ⟨_, Bytes.asArray_eq_some.mpr rfl, verifies _⟩

/-- No limit of the record refuses what was admitted. -/
theorem seal_ne_wire {target : Target} (onMachine : SealsOn target)
    (verifies : Features.faultResistant = true → author.Verifies) {source : Entropy} {wire : WireError} :
    Core.seal author context plaintext recipients indexes suite source ≠ .error (.wire wire) := by
  intro failed
  simp only [Core.seal, Process.bind_eq_error, Process.embed_eq_error, Process.ensure_eq_error, Process.embed_eq_ok,
    Process.ensure_eq_ok, repeatsScope_iff, not_not, reduceCtorEq, and_false, false_or, or_false, exists_false,
    Process.pure_ne_error, preflight_ne_wire, fill_ne_wire, mapError_eq_error, mapError_eq_ok] at failed
  obtain ⟨_, _, ⟨admitted, rfl⟩, _, _, ⟨readers, rfl⟩, _, _, ⟨definitions, rfl⟩, objectSecret, _, -, failed⟩ := failed
  cases failed with
  | inl refused =>
      obtain ⟨keys, derived⟩ := deriveObjectKeys_ok objectSecret context
      cases derived.symm.trans refused
  | inr failed =>
      obtain ⟨keys, _, ⟨-, rfl⟩, nonce, _, -, ciphertext, _, ⟨encrypted, rfl⟩, failed⟩ := failed
      cases failed with
      | inl refused => exact envelopes_ne_wire refused
      | inr failed =>
          obtain ⟨envelopes, _, wrapped, refused⟩ := failed
          have within := firstRecord_within onMachine author (preflight_eq_ok.mp admitted) readers definitions
            (commitKey keys.2 suite context) encrypted (Process.each_forall₂ wrapped fun _ _ _ _ => wrapDek_ok)
          have checked := validateOwn_ok within rfl fun resistant => (verifies resistant).firstRecord
          cases checked.symm.trans refused

/-- What a seal makes of its recipients and indexes. -/
structure Arranges (recipients : List Recipient) (indexes : List BlindIndex) (record : SealedRecord) : Prop where
  ascending : record.recipients.Pairwise fun left right => ScopeLt left.scope right.scope
  oneToOne : ∃ objectSecret readers, readers.Perm recipients ∧
    List.Forall₂ (Wraps objectSecret record.context) readers record.recipients
  indexesAscending : record.indexes.Pairwise fun left right => ScopeLt left.scope right.scope
  indexes : record.indexes.Perm indexes

/-- A seal on a machine that can run the suite, when randomness and the encapsulations
    succeed: it never fails in the limits of the record, it returns one exactly when preflight
    passes and no scope repeats in either list, in whatever order they come, and that record
    is in canonical order and passes the checks of a reader who pins the author. -/
theorem seal_exact (target : Target) (onMachine : SealsOn target) (author : Author) (context : RecordContext)
    (plaintext : Bytes) (recipients : List Recipient) (indexes : List BlindIndex) (suite : Suite)
    (available : suite.isAvailable target = true) (verifies : Features.faultResistant = true → author.Verifies)
    (source : Entropy)
    (succeeds : ∃ rest objectSecret nonce envelopes,
      Draws context recipients suite source rest objectSecret nonce envelopes) :
    (∀ wire, Core.seal author context plaintext recipients indexes suite source ≠ .error (.wire wire)) ∧
    ((∃ record rest, Core.seal author context plaintext recipients indexes suite source = .ok (record, rest)) ↔
      preflight context plaintext.length recipients indexes = .ok () ∧
        (recipients.map Recipient.scope).Nodup ∧ (indexes.map BlindIndex.scope).Nodup) ∧
    ∀ record rest, Core.seal author context plaintext recipients indexes suite source = .ok (record, rest) →
      Arranges recipients indexes record ∧
        (SignatureVerifies record → record.validate (policyFor author.publicKey) = .ok ()) := by
  refine ⟨fun wire => seal_ne_wire onMachine verifies, ⟨?_, ?_⟩, ?_⟩
  · rintro ⟨record, rest, done⟩
    exact (seal_eq_ok.mp done).1
  · intro passes
    obtain ⟨rest, objectSecret, nonce, envelopes, draws⟩ := succeeds
    obtain ⟨⟨dataKey, commitmentKey⟩, derived⟩ := deriveObjectKeys_ok objectSecret context
    obtain ⟨ciphertext, encrypted⟩ : ∃ ciphertext,
        ClientPrimitives.aeadSeal suite dataKey nonce.toList (payloadAad suite context) plaintext = .ok ciphertext :=
      onMachine.seals available nonce
    have within := firstRecord_within onMachine author (preflight_eq_ok.mp passes.1) passes.2.1 passes.2.2
      (commitKey commitmentKey suite context) encrypted draws.wraps
    have checked := validateOwn_ok within rfl fun resistant => (verifies resistant).firstRecord
    exact ⟨_, rest, seal_eq_ok.mpr ⟨passes, objectSecret, dataKey, commitmentKey, nonce, ciphertext, envelopes, draws,
      derived, encrypted, rfl, checked⟩⟩
  · intro record rest done
    obtain ⟨⟨admitted, readers, definitions⟩, objectSecret, dataKey, commitmentKey, nonce, ciphertext, envelopes, draws,
      derived, encrypted, rfl, checked⟩ := seal_eq_ok.mp done
    have within := firstRecord_within onMachine author (preflight_eq_ok.mp admitted) readers definitions
      (commitKey commitmentKey suite context) encrypted draws.wraps
    constructor
    · exact
        { ascending := within.recipientsSorted
          oneToOne := ⟨objectSecret, sortByScope Recipient.scope recipients, sortByScope_perm _ _, draws.wraps⟩
          indexesAscending := within.indexesSorted
          indexes := sortByScope_perm _ _ }
    · intro signed
      exact validate_eq_ok.mpr ⟨within, signed, List.mem_singleton_self _⟩

end Sealing

section SampleSeal

/-- The sample's primitives, with the ciphers of a machine without AES instructions. -/
@[reducible] def machinePrimitives : ClientPrimitives := { lineagePrimitives with
  aeadSeal := fun suite key nonce aad plaintext =>
    (suite.«seal» Target.portable key nonce aad plaintext : Id (Except AeadError Bytes))
  aeadOpen := fun suite key nonce aad ciphertext =>
    (suite.«open» Target.portable key nonce aad ciphertext : Id (Except AeadError Bytes)) }

attribute [local instance] machinePrimitives defaultFeatures

def aliceReader : Recipient := @RecipientKeypair.recipient lineagePrimitives alice

def bobReader : Recipient := @RecipientKeypair.recipient lineagePrimitives bob

/-- An index under a label, its token all one byte. -/
def labelled (label : String) (fill : UInt8) : BlindIndex :=
  { label, schemaVersion := 1, canonicalizerId := "raw_bytes", canonicalizerVersion := 1, keyEpoch := 1
    token := .replicate INDEX_TOKEN_LEN fill }

theorem sample_draws :
    ∃ rest objectSecret nonce envelopes,
      Draws sampleContext [bobReader, aliceReader] .chaCha20Poly1305 (answers [3, 4, 5, 6]) rest objectSecret nonce
        envelopes := by
  obtain ⟨rest, wrapped⟩ : ∃ rest, Process.each (fun recipient => wrapDek recipient (.replicate 32 3) sampleContext)
      (sortByScope Recipient.scope [bobReader, aliceReader]) (answers [5, 6]) =
        .ok ([envelopeFor "alice" aliceKeyId aliceSealed, envelopeFor "bob" bobKeyId bobGranted], rest) :=
    Process.exists_state (by decide +kernel)
  exact ⟨rest, .replicate 32 3, .replicate 12 4, _, answers [4, 5, 6], answers [5, 6], rfl, rfl, wrapped⟩

/-- Two bytes, sealed for Bob and Alice under two labels, neither list in order: both come out
    in order. -/
theorem seal_exact_bob_alice :
    ∃ record rest, Core.seal sampleAuthor sampleContext (asBytes "hi") [bobReader, aliceReader]
        [labelled "name" 1, labelled "city" 2] .chaCha20Poly1305 (answers [3, 4, 5, 6]) = .ok (record, rest) ∧
      Arranges [bobReader, aliceReader] [labelled "name" 1, labelled "city" 2] record := by
  obtain ⟨-, succeeds, arranged⟩ := seal_exact .portable (fun _ _ _ _ _ => rfl) sampleAuthor sampleContext (asBytes "hi")
    [bobReader, aliceReader] [labelled "name" 1, labelled "city" 2] .chaCha20Poly1305 rfl
    (fun resistant => absurd resistant Bool.false_ne_true) (answers [3, 4, 5, 6]) sample_draws
  obtain ⟨record, rest, done⟩ := succeeds.mpr ⟨by decide +kernel, by decide +kernel, by decide +kernel⟩
  exact ⟨record, rest, done, (arranged record rest done).1⟩

end SampleSeal

end Blindplane.Core
