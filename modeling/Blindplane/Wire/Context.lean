import Blindplane.Crypto.Suite
import Blindplane.Lib.Utf8

/-! # Cleartext routing context, recipient envelopes and blind-index records -/

namespace Blindplane.Wire

open Lib Lib.Utf8 Crypto

/-- Current binary wire format version. -/
def FORMAT_VERSION : UInt16 := 1

/-- Size of an exact blind-index token in bytes. -/
def INDEX_TOKEN_LEN : Nat := 16

/-- Size of an X25519 public or encapsulated key. -/
def X25519_KEY_LEN : Nat := 32

/-- An HPKE-wrapped 256-bit DEK plus its authentication tag. -/
def WRAPPED_DEK_LEN : Nat := 48

/-- Append a length as eight big-endian bytes. -/
def pushLen (out : Bytes) (len : Nat) : Bytes := out ++ Bytes.be 8 len

/-- Append a length-prefixed byte string. -/
def pushBytes (out bytes : Bytes) : Bytes := pushLen out bytes.length ++ bytes

theorem pushBytes_eq (out bytes : Bytes) : pushBytes out bytes = out ++ Bytes.framed 8 bytes := by
  simp only [pushBytes, pushLen, Bytes.framed, List.append_assoc]

/-- Cleartext routing context, authenticated by the payload AEAD and the record
    signature. -/
structure RecordContext where
  tenant : String
  objectId : String
  field : String
  epoch : UInt64
  version : UInt64
  schemaVersion : UInt32
  deriving DecidableEq, Repr

def contextDomain : Bytes := asBytes "blindplane/context/v1"

namespace RecordContext

/-- Deterministic encoding used as cryptographic context. -/
def canonicalBytes (context : RecordContext) : Bytes :=
  let out := pushBytes [] contextDomain
  let out := pushBytes out (asBytes context.tenant)
  let out := pushBytes out (asBytes context.objectId)
  let out := pushBytes out (asBytes context.field)
  let out := out ++ Bytes.u64 context.epoch
  let out := out ++ Bytes.u64 context.version
  out ++ Bytes.u32 context.schemaVersion

theorem canonicalBytes_eq (context : RecordContext) :
    context.canonicalBytes = Bytes.framed 8 contextDomain ++
      (Bytes.framed 8 (asBytes context.tenant) ++ (Bytes.framed 8 (asBytes context.objectId) ++
        (Bytes.framed 8 (asBytes context.field) ++ (Bytes.u64 context.epoch ++
          (Bytes.u64 context.version ++ Bytes.u32 context.schemaVersion))))) := by
  simp only [canonicalBytes, pushBytes_eq, List.nil_append, List.append_assoc]

theorem canonicalBytes_length (context : RecordContext) :
    context.canonicalBytes.length = 73 + (asBytes context.tenant).length +
      (asBytes context.objectId).length + (asBytes context.field).length := by
  have domain : contextDomain.length = 21 := by decide
  simp only [canonicalBytes_eq, List.length_append, Bytes.framed_length, Bytes.u64_length,
    Bytes.u32_length, domain]
  omega

end RecordContext

/-- Per-recipient HPKE envelope carrying the record's data-encryption key. -/
structure RecipientEnvelope where
  recipientId : String
  keyEpoch : UInt64
  recipientKeyId : Vector UInt8 32
  encapsulatedKey : Bytes
  wrappedDek : Bytes
  deriving DecidableEq, Repr

/-- Equality-search token under a visible label and key epoch. -/
structure BlindIndex where
  label : String
  schemaVersion : UInt32
  canonicalizerId : String
  canonicalizerVersion : UInt16
  keyEpoch : UInt64
  token : Vector UInt8 INDEX_TOKEN_LEN
  deriving DecidableEq, Repr

def payloadAadDomain : Bytes := asBytes "blindplane/payload-aad/v1"

/-- Build payload AEAD associated data before a record exists. -/
def payloadAad (suite : Suite) (context : RecordContext) : Bytes :=
  let out := pushBytes [] payloadAadDomain
  let out := out ++ [suite.code]
  pushBytes out context.canonicalBytes

end Blindplane.Wire
