import Blindplane.Crypto.Hpke
import Blindplane.Wire.Record

/-! # Author and recipient identities

A recipient can only be built with a nonempty identifier, a key epoch, and the
fingerprint of its own public key. A key pair holds the secret its public key was
derived from.
-/

namespace Blindplane.Core

open Lib Lib.Utf8 Lib.Checked Crypto Wire

/-- A client-side failure. -/
inductive CryptoError where
  | randomness
  | invalidKeyIdentity
  | invalidSignerKey
  | noRecipients
  | duplicateRecipient
  | duplicateIndex
  | invalidIndexScope
  | invalidRecordInput
  | payloadTooLarge
  | keyDerivation
  | hpkeSeal
  | hpkeOpen
  | payloadSeal
  | payloadOpen
  | noEnvelopeForRecipient
  | invalidRekeyContext
  | manifestRevisionOverflow
  | invalidVaultParameters
  | wire (error : WireError)
  deriving DecidableEq, Repr

def RECIPIENT_KEY_ID_DOMAIN : Bytes := asBytes "blindplane/recipient-key-id/v1"

/-- Compute the domain-separated fingerprint that must be verified out of band before
    granting access. -/
def recipientKeyId [Primitives] (publicKey : Vector UInt8 32) : Vector UInt8 32 :=
  Primitives.sha256 (RECIPIENT_KEY_ID_DOMAIN ++ publicKey.toList)

/-- An Ed25519 record author and policy signer. -/
structure Author where
  signingKey : Vector UInt8 32

namespace Author

/-- Generate a new signing identity. -/
def generate : Process Entropy CryptoError Author := do
  let signingKey ← Entropy.fill .randomness 32
  return { signingKey }

variable [ClientPrimitives]

def publicKey (author : Author) : Vector UInt8 32 := ClientPrimitives.verifyingKey author.signingKey

/-- The record under the author's key and signature. -/
def sign (author : Author) (record : SealedRecord) : SealedRecord :=
  let record := { record with signerPublicKey := author.publicKey }
  { record with
    signature := (ClientPrimitives.sign author.signingKey record.signingBytes).toList }

end Author

/-- A public recipient and key epoch, used when granting read access. -/
structure Recipient [Primitives] where
  recipientId : String
  keyEpoch : UInt64
  recipientKeyId : Vector UInt8 32
  publicKey : Vector UInt8 32
  identified : ¬ ((asBytes recipientId).length = 0 ∨ keyEpoch = 0)
  fingerprint : recipientKeyId = Core.recipientKeyId publicKey

namespace Recipient

variable [Primitives]

/-- Construct a recipient only when an independently pinned fingerprint matches the
    key. -/
def fromVerifiedKey (recipientId : String) (keyEpoch : UInt64)
    (publicKey expectedKeyId : Vector UInt8 32) : Except CryptoError Recipient :=
  let actualKeyId := Core.recipientKeyId publicKey
  if refused : ((asBytes recipientId).length = 0 ∨ keyEpoch = 0) ∨ actualKeyId ≠ expectedKeyId then
    .error .invalidKeyIdentity
  else
    .ok { recipientId, keyEpoch, recipientKeyId := actualKeyId, publicKey
          identified := fun invalid => refused (.inl invalid), fingerprint := rfl }

/-- The recipients are what verified keys give: the invariant is exactly what is checked. -/
theorem fromVerifiedKey_eq_ok {recipientId : String} {keyEpoch : UInt64}
    {publicKey expectedKeyId : Vector UInt8 32} {recipient : Recipient} :
    fromVerifiedKey recipientId keyEpoch publicKey expectedKeyId = .ok recipient ↔
      Core.recipientKeyId publicKey = expectedKeyId ∧ recipient.recipientId = recipientId ∧
        recipient.keyEpoch = keyEpoch ∧ recipient.publicKey = publicKey := by
  constructor
  · intro accepted
    simp only [fromVerifiedKey] at accepted
    split at accepted
    · cases accepted
    · next sound =>
      obtain rfl := Except.ok.inj accepted
      exact ⟨not_not.mp fun differs => sound (.inr differs), rfl, rfl, rfl⟩
  · rintro ⟨rfl, rfl, rfl, rfl⟩
    obtain ⟨recipientId, keyEpoch, recipientKeyId, publicKey, identified, rfl⟩ := recipient
    exact dif_neg fun refused => refused.elim identified fun differs => differs rfl

def scope (recipient : Recipient) : String × UInt64 := (recipient.recipientId, recipient.keyEpoch)

/-- The `(recipient_id, key_epoch, fingerprint)` an envelope is looked up by. -/
def address (recipient : Recipient) : String × UInt64 × Vector UInt8 32 :=
  (recipient.recipientId, recipient.keyEpoch, recipient.recipientKeyId)

/-- Where fingerprints tell keys apart, the address is all there is to a recipient. -/
theorem eq_of_address {keys : Set (Vector UInt8 32)} (distinct : Set.InjOn Core.recipientKeyId keys)
    {a b : Recipient} (insideA : a.publicKey ∈ keys) (insideB : b.publicKey ∈ keys)
    (same : a.address = b.address) : a = b := by
  obtain ⟨idA, epochA, keyIdA, keyA, _, fingerprintA⟩ := a
  obtain ⟨idB, epochB, keyIdB, keyB, _, fingerprintB⟩ := b
  simp only [address, Prod.mk.injEq] at same insideA insideB
  obtain ⟨rfl, rfl, rfl⟩ := same
  obtain rfl := distinct insideA insideB (fingerprintA.symm.trans fingerprintB)
  rfl

end Recipient

/-- A client-held X25519 key pair. -/
structure RecipientKeypair [ClientPrimitives] where
  recipient : Recipient
  secret : StaticSecret
  derived : recipient.publicKey = secret.publicKey

namespace RecipientKeypair

variable [ClientPrimitives]

def assemble (recipientId : String) (keyEpoch : UInt64) (secret : StaticSecret)
    (identified : ¬ ((asBytes recipientId).length = 0 ∨ keyEpoch = 0)) : RecipientKeypair where
  recipient :=
    { recipientId, keyEpoch, recipientKeyId := recipientKeyId secret.publicKey
      publicKey := secret.publicKey, identified, fingerprint := rfl }
  secret
  derived := rfl

/-- Generate a new recipient key pair. -/
def generate (recipientId : String) (keyEpoch : UInt64) :
    Process Entropy CryptoError RecipientKeypair :=
  if invalid : (asBytes recipientId).length = 0 ∨ keyEpoch = 0 then
    Process.embed (.error .invalidKeyIdentity)
  else do
    let secret ← StaticSecret.generate .randomness
    return assemble recipientId keyEpoch secret invalid

/-- Restore a recipient key pair from secret bytes; its public key is derived. -/
def fromSecretBytes (recipientId : String) (keyEpoch : UInt64) (secretBytes : Vector UInt8 32) :
    Except CryptoError RecipientKeypair :=
  if invalid : (asBytes recipientId).length = 0 ∨ keyEpoch = 0 then .error .invalidKeyIdentity
  else .ok (assemble recipientId keyEpoch { secret := secretBytes } invalid)

/-- Every key pair is restored from its identity and secret. -/
theorem fromSecretBytes_eq_ok {recipientId : String} {keyEpoch : UInt64}
    {secretBytes : Vector UInt8 32} {keypair : RecipientKeypair} :
    fromSecretBytes recipientId keyEpoch secretBytes = .ok keypair ↔
      keypair.recipient.recipientId = recipientId ∧ keypair.recipient.keyEpoch = keyEpoch ∧
        keypair.secret.secret = secretBytes := by
  unfold fromSecretBytes
  constructor
  · intro restored
    split at restored
    · cases restored
    · obtain rfl := Except.ok.inj restored
      exact ⟨rfl, rfl, rfl⟩
  · rintro ⟨rfl, rfl, rfl⟩
    obtain ⟨⟨recipientId, keyEpoch, recipientKeyId, publicKey, identified, rfl⟩, ⟨secret⟩, derived⟩ :=
      keypair
    obtain rfl : publicKey = _ := derived
    exact dif_neg identified

end RecipientKeypair

end Blindplane.Core
