import Blindplane.Core.Derive
import Mathlib.Data.List.Sort

/-! # Sealing, opening, granting and rekeying signed records

The producers draw from the entropy of the call; opening draws nothing. Whatever a
producer returns has passed its own check of the record under the default limits.
-/

namespace Blindplane.Core

open Lib Lib.Utf8 Lib.Checked Crypto Wire

/-- A stable sort by `(identifier, epoch)`. -/
def sortByScope {α : Type} (scope : α → String × UInt64) (items : List α) : List α :=
  items.insertionSort fun left right => (scopeOrder (scope left) (scope right)).isLE

/-- Two neighbours of the list have one scope: `windows(2)` of the source. -/
def RepeatsScope {α : Type} (scope : α → String × UInt64) (items : List α) : Prop :=
  ∃ pair ∈ items.zip items.tail, scope pair.1 = scope pair.2

instance {α : Type} (scope : α → String × UInt64) (items : List α) :
    Decidable (RepeatsScope scope items) :=
  inferInstanceAs (Decidable (∃ pair ∈ items.zip items.tail, scope pair.1 = scope pair.2))

/-- `u64::checked_add`. -/
def checkedAdd (a b : UInt64) : Option UInt64 :=
  if a.toNat + b.toNat < 2 ^ 64 then some (a + b) else none

variable [ClientPrimitives]

/-- The shared body of every open; the record has been validated. -/
def openValidated (record : SealedRecord) (recipient : RecipientKeypair) :
    Except CryptoError Bytes := do
  let envelope ← okOr
    (record.recipient recipient.recipient.recipientId recipient.recipient.keyEpoch
      recipient.recipient.recipientKeyId)
    .noEnvelopeForRecipient
  let objectSecret ← unwrapDek record envelope recipient
  let (dataKey, commitmentKey) ← deriveObjectKeys objectSecret record.context
  let commitment := commitKey commitmentKey record.suite record.context
  rejectIf (commitment ≠ record.keyCommitment) .payloadOpen
  (ClientPrimitives.aeadOpen record.suite dataKey record.nonce record.payloadAad
    record.ciphertext).mapError fun _ => .payloadOpen

/-- Open a record after enforcing an expected signer pin. -/
def «open» (record : SealedRecord) (recipient : RecipientKeypair) (expectedSigner : Vector UInt8 32) :
    Except CryptoError Bytes := do
  (record.validate (policyFor expectedSigner)).mapError .wire
  openValidated record recipient

variable [Features]

/-- Seal one payload for one or more independent recipients. -/
def «seal» (author : Author) (context : RecordContext) (plaintext : Bytes)
    (recipients : List Recipient) (indexes : List BlindIndex) (suite : Suite) :
    Process Entropy CryptoError SealedRecord := do
  Process.embed (preflight context plaintext.length recipients indexes)
  let sortedRecipients := sortByScope Recipient.scope recipients
  Process.ensure (¬ RepeatsScope Recipient.scope sortedRecipients) .duplicateRecipient
  let sortedIndexes := sortByScope BlindIndex.scope indexes
  Process.ensure (¬ RepeatsScope BlindIndex.scope sortedIndexes) .duplicateIndex
  let objectSecret ← Entropy.fill .randomness 32
  let (dataKey, commitmentKey) ← Process.embed (deriveObjectKeys objectSecret context)
  let keyCommitment := commitKey commitmentKey suite context
  let nonce ← Entropy.fill .randomness suite.nonceLen
  let aad := payloadAad suite context
  let ciphertext ← Process.embed
    ((ClientPrimitives.aeadSeal suite dataKey nonce.toList aad plaintext).mapError
      fun _ => .payloadSeal)
  let envelopes ← Process.each (fun recipient => wrapDek recipient objectSecret context)
    sortedRecipients
  let record : SealedRecord :=
    { formatVersion := FORMAT_VERSION
      suite
      context
      manifestRevision := 1
      previousManifestHash := .replicate 32 0
      keyCommitment
      nonce := nonce.toList
      ciphertext
      recipients := envelopes
      indexes := sortedIndexes
      signerPublicKey := author.publicKey
      signature := List.replicate 64 0 }
  let record := author.sign record
  Process.embed (validateOwn record (policyFor author.publicKey))
  return record

/-- Add a recipient envelope without re-encrypting the payload. -/
def grantRecipient (record : SealedRecord) (grantingRecipient : RecipientKeypair) (author : Author)
    (newRecipient : Recipient) : Process Entropy CryptoError SealedRecord := do
  Process.embed ((record.validate (policyFor author.publicKey)).mapError .wire)
  Process.ensure (¬ ∃ existing ∈ record.recipients,
      existing.recipientId = newRecipient.recipientId ∧ existing.keyEpoch = newRecipient.keyEpoch)
    .duplicateRecipient
  let currentEnvelope ← Process.embed (okOr
    (record.recipient grantingRecipient.recipient.recipientId grantingRecipient.recipient.keyEpoch
      grantingRecipient.recipient.recipientKeyId)
    .noEnvelopeForRecipient)
  let objectSecret ← Process.embed (unwrapDek record currentEnvelope grantingRecipient)
  let manifestRevision ← Process.embed
    (okOr (checkedAdd record.manifestRevision 1) .manifestRevisionOverflow)
  let envelope ← wrapDek newRecipient objectSecret record.context
  let updated := { record with
    previousManifestHash := record.manifestHash
    manifestRevision
    recipients := sortByScope RecipientEnvelope.scope (record.recipients ++ [envelope]) }
  let updated := author.sign updated
  Process.embed (validateOwn updated (policyFor author.publicKey))
  return updated

/-- Revoke access by generating a new object secret, nonce, epoch and envelopes for the
    remaining recipients. -/
def rekey (record : SealedRecord) (openingRecipient : RecipientKeypair) (author : Author)
    (nextContext : RecordContext) (remainingRecipients : List Recipient)
    (nextIndexes : List BlindIndex) : Process Entropy CryptoError SealedRecord := do
  Process.ensure (¬ (nextContext.tenant ≠ record.context.tenant ∨
      nextContext.objectId ≠ record.context.objectId ∨ nextContext.field ≠ record.context.field ∨
      nextContext.epoch ≤ record.context.epoch ∨ nextContext.version ≤ record.context.version))
    .invalidRekeyContext
  let nextContext := { nextContext with
    schemaVersion := max nextContext.schemaVersion record.context.schemaVersion }
  let plaintext ← Process.embed (Core.open record openingRecipient author.publicKey)
  let next ← Core.seal author nextContext plaintext remainingRecipients nextIndexes record.suite
  let manifestRevision ← Process.embed
    (okOr (checkedAdd record.manifestRevision 1) .manifestRevisionOverflow)
  let next := author.sign { next with previousManifestHash := record.manifestHash, manifestRevision }
  Process.embed (validateOwn next (policyFor author.publicKey))
  return next

end Blindplane.Core
