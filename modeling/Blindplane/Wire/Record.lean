import Blindplane.Wire.Context
import Blindplane.Lib.Checked

/-! # The signed, multi-recipient sealed record and its keyless validation

Validation stops at the first failed check, in the order of the source, and every
error carries the value the source reports.
-/

namespace Blindplane.Wire

open Lib Lib.Utf8 Lib.Checked Crypto Std

/-- Machine sizes of the 64-bit targets. -/
abbrev Usize := UInt64

/-- Limits and signer pins enforced by a keyless server. The pins are a set, held as
    the list of its members. -/
structure ValidationPolicy where
  maxCiphertextBytes : Usize
  maxRecipients : Usize
  maxIndexes : Usize
  maxIdentifierBytes : Usize
  allowedSigners : List (Vector UInt8 32)

/-- `ValidationPolicy::default`. -/
def ValidationPolicy.default : ValidationPolicy where
  maxCiphertextBytes := 8 * 1024 * 1024
  maxRecipients := 256
  maxIndexes := 32
  maxIdentifierBytes := 255
  allowedSigners := []

/-- Keyless validation error. -/
inductive WireError where
  | unsupportedFormat (version : UInt16)
  | identifierLength (len : Nat)
  | invalidVersion
  | invalidManifestChain
  | invalidKeyEpoch
  | invalidIndexDefinition
  | invalidNonceLength (expected actual : Nat)
  | ciphertextSize (len : Nat)
  | recipientCount (count : Nat)
  | nonCanonicalRecipients
  | invalidEncapsulatedKeyLength (len : Nat)
  | invalidWrappedDekLength (len : Nat)
  | indexCount (count : Nat)
  | nonCanonicalIndexes
  | invalidSignature
  | invalidSignatureLength (len : Nat)
  | untrustedSigner
  | noTrustedSigners
  | rollbackDetected
  | truncated
  | trailingBytes
  | lengthLimit (len : Nat)
  | nonCanonicalEncoding
  | invalidUtf8
  deriving DecidableEq, Repr

/-- The text of an error. -/
def WireError.display : WireError → String
  | .unsupportedFormat version => s!"unsupported format version {version}"
  | .identifierLength len => s!"invalid identifier length {len}"
  | .invalidVersion => "epoch and version must be non-zero"
  | .invalidManifestChain => "invalid access-manifest hash chain"
  | .invalidKeyEpoch => "recipient key epoch must be non-zero"
  | .invalidIndexDefinition => "invalid blind-index definition"
  | .invalidNonceLength expected actual => s!"invalid nonce length: expected {expected}, got {actual}"
  | .ciphertextSize len => s!"invalid ciphertext size {len}"
  | .recipientCount count => s!"invalid recipient count {count}"
  | .nonCanonicalRecipients => "recipient envelopes are not sorted and unique"
  | .invalidEncapsulatedKeyLength len => s!"invalid HPKE encapsulated key length {len}"
  | .invalidWrappedDekLength len => s!"invalid wrapped DEK length {len}"
  | .indexCount count => s!"invalid blind-index count {count}"
  | .nonCanonicalIndexes => "blind indexes are not sorted and unique"
  | .invalidSignature => "record signature is invalid"
  | .invalidSignatureLength len => s!"invalid signature length {len}"
  | .untrustedSigner => "record signer is not trusted"
  | .noTrustedSigners => "no trusted signer is configured"
  | .rollbackDetected => "record rollback or manifest fork detected"
  | .truncated => "record encoding is truncated"
  | .trailingBytes => "record encoding has trailing bytes"
  | .lengthLimit len => s!"length prefix {len} exceeds policy"
  | .nonCanonicalEncoding => "record encoding is not canonical"
  | .invalidUtf8 => "identifier is not valid UTF-8"

/-- A signed, multi-recipient encrypted record. -/
structure SealedRecord where
  formatVersion : UInt16
  suite : Suite
  context : RecordContext
  manifestRevision : UInt64
  previousManifestHash : Vector UInt8 32
  keyCommitment : Vector UInt8 32
  nonce : Bytes
  ciphertext : Bytes
  recipients : List RecipientEnvelope
  indexes : List BlindIndex
  signerPublicKey : Vector UInt8 32
  signature : Bytes
  deriving DecidableEq, Repr

def recordDomain : Bytes := asBytes "blindplane/record-signature/v1"

def manifestHashDomain : Bytes := asBytes "blindplane/manifest-hash/v1"

/-- The all-zero hash of a genesis record. -/
def zeroHash : Vector UInt8 32 := Vector.replicate 32 0

/-- One envelope of the signed bytes, appended. -/
def pushEnvelope (out : Bytes) (envelope : RecipientEnvelope) : Bytes :=
  let out := pushBytes out (asBytes envelope.recipientId)
  let out := out ++ Bytes.u64 envelope.keyEpoch
  let out := out ++ envelope.recipientKeyId.toList
  let out := pushBytes out envelope.encapsulatedKey
  pushBytes out envelope.wrappedDek

/-- One blind index of the signed bytes, appended. -/
def pushIndex (out : Bytes) (index : BlindIndex) : Bytes :=
  let out := pushBytes out (asBytes index.label)
  let out := out ++ Bytes.u32 index.schemaVersion
  let out := pushBytes out (asBytes index.canonicalizerId)
  let out := out ++ Bytes.u16 index.canonicalizerVersion
  let out := out ++ Bytes.u64 index.keyEpoch
  out ++ index.token.toList

/-- The order of `(identifier, epoch)` pairs: the identifier's bytes, then the epoch. -/
def scopeOrder : String × UInt64 → String × UInt64 → Ordering :=
  compareLex (compareOn fun scope => asBytes scope.1) (compareOn Prod.snd)

instance : TransCmp scopeOrder :=
  inferInstanceAs (TransCmp (compareLex (compareOn fun scope : String × UInt64 => asBytes scope.1)
    (compareOn Prod.snd)))

instance : LawfulEqCmp scopeOrder where
  compare_self := @ReflCmp.compare_self _ (compareLex
    (compareOn fun scope : String × UInt64 => asBytes scope.1) (compareOn Prod.snd)) _
  eq_of_compare {a b} same := by
    simp only [scopeOrder, compareLex_eq_eq, compareOn] at same
    exact Prod.ext (asBytes_inj.mp (LawfulEqOrd.eq_of_compare same.1))
      (LawfulEqOrd.eq_of_compare same.2)

def RecipientEnvelope.scope (envelope : RecipientEnvelope) : String × UInt64 :=
  (envelope.recipientId, envelope.keyEpoch)

def BlindIndex.scope (index : BlindIndex) : String × UInt64 := (index.label, index.keyEpoch)

def validateLabel (value : String) (max : Usize) : Except WireError Unit :=
  rejectIf ((asBytes value).length = 0 ∨ (asBytes value).length > max.toNat)
    (.identifierLength (asBytes value).length)

def validateContext (context : RecordContext) (policy : ValidationPolicy) :
    Except WireError Unit := do
  validateLabel context.tenant policy.maxIdentifierBytes
  validateLabel context.objectId policy.maxIdentifierBytes
  validateLabel context.field policy.maxIdentifierBytes
  rejectIf (context.epoch = 0 ∨ context.version = 0 ∨ context.schemaVersion = 0) .invalidVersion

/-- One turn of the recipient loop: the envelope against the one before it. -/
def validateEnvelope (policy : ValidationPolicy) (previous : Option (String × UInt64))
    (envelope : RecipientEnvelope) : Except WireError Unit := do
  validateLabel envelope.recipientId policy.maxIdentifierBytes
  rejectIf (envelope.keyEpoch = 0) .invalidKeyEpoch
  rejectIf (∃ scope ∈ previous, (scopeOrder scope envelope.scope).isGE) .nonCanonicalRecipients
  rejectIf (envelope.encapsulatedKey.length ≠ X25519_KEY_LEN)
    (.invalidEncapsulatedKeyLength envelope.encapsulatedKey.length)
  rejectIf (envelope.wrappedDek.length ≠ WRAPPED_DEK_LEN)
    (.invalidWrappedDekLength envelope.wrappedDek.length)

/-- One turn of the index loop: the index against the one before it. -/
def validateIndex (policy : ValidationPolicy) (previous : Option (String × UInt64))
    (index : BlindIndex) : Except WireError Unit := do
  validateLabel index.label policy.maxIdentifierBytes
  validateLabel index.canonicalizerId policy.maxIdentifierBytes
  rejectIf (index.keyEpoch = 0 ∨ index.schemaVersion = 0 ∨ index.canonicalizerVersion = 0)
    .invalidIndexDefinition
  rejectIf (∃ scope ∈ previous, (scopeOrder scope index.scope).isGE) .nonCanonicalIndexes

/-- Check each item against the scope of the item before it. -/
def validateInOrder {α : Type} (scope : α → String × UInt64)
    (check : Option (String × UInt64) → α → Except WireError Unit) :
    Option (String × UInt64) → List α → Except WireError Unit
  | _, [] => .ok ()
  | previous, item :: rest => do
      check previous item
      validateInOrder scope check (some (scope item)) rest

namespace SealedRecord

/-- Canonical bytes signed by the record author. -/
def signingBytes (record : SealedRecord) : Bytes :=
  let out := pushBytes [] recordDomain
  let out := out ++ Bytes.u16 record.formatVersion
  let out := out ++ [record.suite.code]
  let out := pushBytes out record.context.canonicalBytes
  let out := out ++ Bytes.u64 record.manifestRevision
  let out := out ++ record.previousManifestHash.toList
  let out := out ++ record.keyCommitment.toList
  let out := pushBytes out record.nonce
  let out := pushBytes out record.ciphertext
  let out := pushLen out record.recipients.length
  let out := record.recipients.foldl pushEnvelope out
  let out := pushLen out record.indexes.length
  let out := record.indexes.foldl pushIndex out
  out ++ record.signerPublicKey.toList

/-- Serialize to the canonical binary wire encoding. -/
def encode (record : SealedRecord) : Bytes :=
  pushBytes record.signingBytes record.signature

/-- Payload AEAD associated data. Envelopes and indexes are excluded, so an
    authorized signer can grant access without re-encrypting the payload. -/
def payloadAad (record : SealedRecord) : Bytes := Wire.payloadAad record.suite record.context

/-- Everything `validateStructure` checks except the signature itself. -/
def validateLimits (record : SealedRecord) (policy : ValidationPolicy) : Except WireError Unit := do
  rejectIf (record.formatVersion ≠ FORMAT_VERSION) (.unsupportedFormat record.formatVersion)
  validateContext record.context policy
  rejectIf (record.manifestRevision = 0 ∨
      (record.manifestRevision = 1 ∧ record.previousManifestHash ≠ zeroHash) ∨
      (record.manifestRevision > 1 ∧ record.previousManifestHash = zeroHash))
    .invalidManifestChain
  rejectIf (record.nonce.length ≠ record.suite.nonceLen)
    (.invalidNonceLength record.suite.nonceLen record.nonce.length)
  rejectIf (record.ciphertext.length < TAG_LEN ∨
      record.ciphertext.length > policy.maxCiphertextBytes.toNat)
    (.ciphertextSize record.ciphertext.length)
  rejectIf (record.recipients.length = 0 ∨
      record.recipients.length > policy.maxRecipients.toNat)
    (.recipientCount record.recipients.length)
  validateInOrder RecipientEnvelope.scope (validateEnvelope policy) none record.recipients
  rejectIf (record.indexes.length > policy.maxIndexes.toNat) (.indexCount record.indexes.length)
  validateInOrder BlindIndex.scope (validateIndex policy) none record.indexes
  rejectIf (record.signature.length ≠ 64) (.invalidSignatureLength record.signature.length)

/-- Check limits and canonical form, but not the signature. -/
def validateShape (record : SealedRecord) (policy : ValidationPolicy) : Except WireError Unit :=
  record.validateLimits policy

/-- Find the envelope for one recipient, key epoch and key fingerprint. -/
def recipient (record : SealedRecord) (recipientId : String) (keyEpoch : UInt64)
    (recipientKeyId : Vector UInt8 32) : Option RecipientEnvelope :=
  record.recipients.find? fun candidate =>
    candidate.recipientId = recipientId ∧ candidate.keyEpoch = keyEpoch ∧
      candidate.recipientKeyId = recipientKeyId

/-- What `manifestHash` feeds to its hash, piece after piece. -/
def manifestPreimage (record : SealedRecord) : Bytes :=
  manifestHashDomain ++ record.signingBytes ++ record.signature

variable [Primitives]

/-- Domain-separated hash used to link signed access manifests. -/
def manifestHash (record : SealedRecord) : Vector UInt8 32 :=
  Primitives.sha256 record.manifestPreimage

/-- Verify limits, canonical form and the self-declared signature without treating
    that signer as authorized. -/
def validateStructure (record : SealedRecord) (policy : ValidationPolicy) :
    Except WireError Unit := do
  record.validateLimits policy
  let signature ← okOr (Bytes.asArray 64 record.signature)
    (.invalidSignatureLength record.signature.length)
  (Primitives.verifyStrict record.signerPublicKey record.signingBytes signature).mapError
    fun _ => .invalidSignature

/-- Verify structure, signature and an explicitly pinned signer. An empty signer set
    fails closed. -/
def validate (record : SealedRecord) (policy : ValidationPolicy) : Except WireError Unit := do
  record.validateStructure policy
  rejectIf (policy.allowedSigners = []) .noTrustedSigners
  rejectIf (record.signerPublicKey ∉ policy.allowedSigners) .untrustedSigner

/-- Verify structure, signature and the pin against a prepared signer. The policy
    supplies the limits only: the verifier is the pin. -/
def validatePinned (record : SealedRecord) (verifier : Primitives.PreparedVerifier)
    (policy : ValidationPolicy) : Except WireError Unit := do
  record.validateLimits policy
  let signature ← okOr (Bytes.asArray 64 record.signature)
    (.invalidSignatureLength record.signature.length)
  if record.signerPublicKey = Primitives.publicKey verifier then
    (Primitives.preparedVerifyStrict verifier record.signingBytes signature).mapError
      fun _ => .invalidSignature
  else do
    (Primitives.verifyStrict record.signerPublicKey record.signingBytes signature).mapError
      fun _ => .invalidSignature
    .error .untrustedSigner

end SealedRecord

end Blindplane.Wire
