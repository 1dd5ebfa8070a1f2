import Blindplane.Core.Identity
import Blindplane.Wire.Limits

/-! # Key derivation, envelope wrapping and the client's own checks

Everything a record's keys are derived from is in its context, so a reader derives
again what the author derived.
-/

namespace Blindplane.Core

open Lib Lib.Utf8 Lib.Checked Crypto Wire

/-- Build-time features of the client crate. -/
class Features where
  faultResistant : Bool

def DEK_LEN : Nat := 32

def HPKE_INFO_DOMAIN : Bytes := asBytes "blindplane/hpke-dek/v1"

def HPKE_AAD_DOMAIN : Bytes := asBytes "blindplane/hpke-envelope-aad/v1"

def DATA_KEY_DOMAIN : Bytes := asBytes "blindplane/data-key/v1"

def COMMITMENT_KEY_DOMAIN : Bytes := asBytes "blindplane/commitment-key/v1"

def COMMITMENT_DOMAIN : Bytes := asBytes "blindplane/key-commitment/v1"

/-- The `pushBytes` convention, written into a MAC instead of a buffer. -/
def macBytes (mac : HmacSha256) (bytes : Bytes) : HmacSha256 :=
  (mac.update (Bytes.be 8 bytes.length)).update bytes

section Transcripts

variable [Primitives]

/-- A domain, a context and a reader, as HPKE is given them. -/
def hpkeTranscript (domain : Bytes) (context : RecordContext) (recipient : Recipient) : Bytes :=
  let out := pushBytes [] domain
  let out := pushBytes out context.canonicalBytes
  let out := pushBytes out (asBytes recipient.recipientId)
  let out := out ++ Bytes.u64 recipient.keyEpoch
  out ++ recipient.recipientKeyId.toList

def hpkeInfo (context : RecordContext) (recipient : Recipient) : Bytes :=
  hpkeTranscript HPKE_INFO_DOMAIN context recipient

def hpkeAad (context : RecordContext) (recipient : Recipient) : Bytes :=
  hpkeTranscript HPKE_AAD_DOMAIN context recipient

/-- The payload key and the commitment key of an object secret in a context. -/
def deriveObjectKeys (objectSecret : Vector UInt8 DEK_LEN) (context : RecordContext) :
    Except CryptoError (Vector UInt8 32 × Vector UInt8 32) :=
  let salt := context.canonicalBytes
  let prk := hkdfExtract salt objectSecret.toList
  let (dataOk, dataKey) := hkdfExpand prk DATA_KEY_DOMAIN (.replicate 32 0)
  let (commitmentOk, commitmentKey) := hkdfExpand prk COMMITMENT_KEY_DOMAIN (.replicate 32 0)
  if ¬ dataOk ∨ ¬ commitmentOk then .error .keyDerivation else .ok (dataKey, commitmentKey)

def commitKey (commitmentKey : Vector UInt8 32) (suite : Suite) (context : RecordContext) :
    Vector UInt8 32 :=
  let mac := HmacSha256.new commitmentKey.toList
  let mac := mac.update COMMITMENT_DOMAIN
  let mac := mac.update [suite.code]
  let mac := macBytes mac context.canonicalBytes
  mac.finalize

/-- Check everything a seal can be refused for before any key is drawn. -/
def preflight (context : RecordContext) (plaintextLen : Nat) (recipients : List Recipient)
    (indexes : List BlindIndex) : Except CryptoError Unit := do
  let policy := ValidationPolicy.default
  let identifiers := [context.tenant, context.objectId, context.field]
  rejectIf ((∃ value ∈ identifiers, (asBytes value).length = 0 ∨
        (asBytes value).length > policy.maxIdentifierBytes.toNat) ∨
      context.epoch = 0 ∨ context.version = 0 ∨ context.schemaVersion = 0)
    .invalidRecordInput
  -- the sum saturates at the largest machine size
  rejectIf (min (plaintextLen + TAG_LEN) (2 ^ 64 - 1) > policy.maxCiphertextBytes.toNat)
    .payloadTooLarge
  rejectIf (recipients.length = 0) .noRecipients
  rejectIf (recipients.length > policy.maxRecipients.toNat ∨
      indexes.length > policy.maxIndexes.toNat)
    .invalidRecordInput
  rejectIf (∃ recipient ∈ recipients,
      (asBytes recipient.recipientId).length = 0 ∨
      (asBytes recipient.recipientId).length > policy.maxIdentifierBytes.toNat ∨
      recipient.keyEpoch = 0 ∨
      recipientKeyId recipient.publicKey ≠ recipient.recipientKeyId)
    .invalidKeyIdentity
  rejectIf (∃ index ∈ indexes,
      (asBytes index.label).length = 0 ∨
      (asBytes index.label).length > policy.maxIdentifierBytes.toNat ∨
      (asBytes index.canonicalizerId).length = 0 ∨
      (asBytes index.canonicalizerId).length > policy.maxIdentifierBytes.toNat ∨
      index.schemaVersion = 0 ∨ index.canonicalizerVersion = 0 ∨ index.keyEpoch = 0)
    .invalidIndexScope

end Transcripts

/-- The default limits, pinning one signer. -/
def policyFor (signer : Vector UInt8 32) : ValidationPolicy :=
  { ValidationPolicy.default with allowedSigners := [signer] }

/-- Check a record we just signed ourselves. Without the `fault-resistant` feature the
    signature itself is trusted. -/
def validateOwn [Primitives] [Features] (record : SealedRecord) (policy : ValidationPolicy) :
    Except CryptoError Unit :=
  if Features.faultResistant then
    (record.validate policy).mapError .wire
  else do
    (record.validateShape policy).mapError .wire
    rejectIf (policy.allowedSigners = []) (.wire .noTrustedSigners)
    rejectIf (¬ policy.allowedSigners.contains record.signerPublicKey) (.wire .untrustedSigner)

section Envelopes

variable [ClientPrimitives]

/-- Wrap an object secret for one reader. Any failure of HPKE, of its randomness too, is
    the same error. -/
def wrapDek (recipient : Recipient) (objectSecret : Vector UInt8 DEK_LEN) (context : RecordContext) :
    Process Entropy CryptoError RecipientEnvelope := do
  let info := hpkeInfo context recipient
  let aad := hpkeAad context recipient
  let (encapsulatedKey, wrappedDek) ←
    (Hpke.seal .chaCha20Poly1305 recipient.publicKey info aad objectSecret.toList).mapError
      fun _ => .hpkeSeal
  return { recipientId := recipient.recipientId, keyEpoch := recipient.keyEpoch
           recipientKeyId := recipient.recipientKeyId, encapsulatedKey, wrappedDek }

def unwrapDek (record : SealedRecord) (envelope : RecipientEnvelope) (recipient : RecipientKeypair) :
    Except CryptoError (Vector UInt8 DEK_LEN) := do
  let descriptor := recipient.recipient
  let info := hpkeInfo record.context descriptor
  let aad := hpkeAad record.context descriptor
  let bytes ←
    (Hpke.open .chaCha20Poly1305 recipient.secret envelope.encapsulatedKey info aad
      envelope.wrappedDek).mapError fun _ => .hpkeOpen
  okOr (Bytes.asArray DEK_LEN bytes) .hpkeOpen

end Envelopes

end Blindplane.Core
