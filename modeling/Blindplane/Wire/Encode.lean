import Blindplane.Wire.Record
import Blindplane.Lib.Grammar

/-! # Canonical binary decoding

The parser of the wire encoding, over the source's cursor: a byte string and an
offset into it. Slicing, fixed-size conversions and the vectors made for a sender's count
are modelled with the panics they have in the source, so that what never panics is a result
and not an assumption.
-/

namespace Blindplane.Wire

open Lib Lib.Utf8 Lib.Checked Crypto

/-- A bounds-checked reader over an untrusted encoding. -/
structure Cursor where
  bytes : Bytes
  offset : Nat
  deriving DecidableEq, Repr

abbrev Reader (α : Type) := Process Cursor (Fault WireError) α

/-- `&bytes[start..stop]`, which panics out of bounds. -/
def slice (bytes : Bytes) (start stop : Nat) : Except (Fault WireError) Bytes :=
  if start ≤ stop ∧ stop ≤ bytes.length then .ok ((bytes.drop start).take (stop - start))
  else .error (.panic .internal)

namespace Cursor

def new (bytes : Bytes) : Cursor := { bytes, offset := 0 }

def isEmpty (cursor : Cursor) : Bool := cursor.offset = cursor.bytes.length

/-- The source adds with `checked_add` and answers an overflow with `Truncated` too:
    no byte string in memory reaches that far. -/
def takeExact (len : Nat) : Reader Bytes := fun cursor => do
  let stop := cursor.offset + len
  rejectIf (stop > cursor.bytes.length) (.error .truncated)
  let taken ← slice cursor.bytes cursor.offset stop
  return (taken, { cursor with offset := stop })

/-- `take_exact(n)?.try_into().expect(..)`. -/
def takeArray (n : Nat) : Reader (Vector UInt8 n) := do
  let bytes ← takeExact n
  Process.embed (okOr (Bytes.asArray n bytes) (.panic .internal))

def takeArray32 : Reader (Vector UInt8 32) := takeArray 32

/-- `take_exact(1)?[0]`. -/
def takeU8 : Reader UInt8 := do
  let bytes ← takeExact 1
  Process.embed (okOr bytes.head? (.panic .internal))

def takeU16 : Reader UInt16 := do
  let bytes ← takeArray 2
  return UInt16.ofNat (Bytes.ofBe bytes.toList)

def takeU32 : Reader UInt32 := do
  let bytes ← takeArray 4
  return UInt32.ofNat (Bytes.ofBe bytes.toList)

def takeU64 : Reader UInt64 := do
  let bytes ← takeArray 8
  return UInt64.ofNat (Bytes.ofBe bytes.toList)

/-- The largest length prefix accepted under a policy. -/
def lengthLimit (policy : ValidationPolicy) : Nat := max policy.maxCiphertextBytes.toNat 4096

/-- Read a length-prefixed slice. A `u64` length always fits the 64-bit `usize`. -/
def takeBytes (policy : ValidationPolicy) : Reader Bytes := do
  let len ← takeU64
  Process.ensure (len.toNat ≤ lengthLimit policy) (.error (.lengthLimit len.toNat))
  takeExact len.toNat

def takeString (policy : ValidationPolicy) : Reader String := do
  let bytes ← takeBytes policy
  Process.ensure (bytes.length ≤ policy.maxIdentifierBytes.toNat)
    (.error (.identifierLength bytes.length))
  Process.embed (okOr (fromUtf8 bytes) (.error .invalidUtf8))

/-- Read a repetition count. -/
def takeLen (max : Usize) : Reader Nat := do
  let len ← takeU64
  Process.ensure (len.toNat ≤ max.toNat) (.error (.lengthLimit len.toNat))
  return len.toNat

end Cursor

open Cursor

/-- What the allocator grants: memory for so many envelopes, or so many indexes. Where it does
    not, `Vec::with_capacity` panics, or the process is aborted. -/
structure Allocator where
  envelopes : Nat → Bool
  indexes : Nat → Bool

namespace Allocator

/-- There is memory for every vector. -/
def granting : Allocator where
  envelopes _ := true
  indexes _ := true

/-- A vector takes up to `isize::MAX` bytes on a 64-bit machine, an envelope 112 of them and
    an index 80. -/
def isize : Allocator where
  envelopes count := count * 112 < 2 ^ 63
  indexes count := count * 80 < 2 ^ 63

end Allocator

def suiteFromCode (code : UInt8) : Except WireError Suite :=
  if code = 1 then .ok .aes256Gcm
  else if code = 2 then .ok .xChaCha20Poly1305
  else if code = 3 then .ok .chaCha20Poly1305
  else .error (.unsupportedFormat code.toUInt16)

/-- The fields `decode_context` reads. -/
def contextFields (policy : ValidationPolicy) : Reader RecordContext := do
  let domain ← takeBytes policy
  Process.ensure (domain = contextDomain) (.error (.unsupportedFormat 0))
  let tenant ← takeString policy
  let objectId ← takeString policy
  let field ← takeString policy
  let epoch ← takeU64
  let version ← takeU64
  let schemaVersion ← takeU32
  return { tenant, objectId, field, epoch, version, schemaVersion }

/-- Run a reader over a whole byte string, refusing what it leaves unread. -/
def readAll {α : Type} (reader : Reader α) (bytes : Bytes) : Except (Fault WireError) α := do
  let (value, cursor) ← reader.run (Cursor.new bytes)
  rejectIf (!cursor.isEmpty) (.error .trailingBytes)
  return value

def decodeContext (bytes : Bytes) (policy : ValidationPolicy) :
    Except (Fault WireError) RecordContext :=
  readAll (contextFields policy) bytes

def recipientFields (policy : ValidationPolicy) : Reader RecipientEnvelope := do
  let recipientId ← takeString policy
  let keyEpoch ← takeU64
  let recipientKeyId ← takeArray32
  let encapsulatedKey ← takeBytes policy
  let wrappedDek ← takeBytes policy
  return { recipientId, keyEpoch, recipientKeyId, encapsulatedKey, wrappedDek }

def indexFields (policy : ValidationPolicy) : Reader BlindIndex := do
  let label ← takeString policy
  let schemaVersion ← takeU32
  let canonicalizerId ← takeString policy
  let canonicalizerVersion ← takeU16
  let keyEpoch ← takeU64
  let token ← takeArray INDEX_TOKEN_LEN
  return { label, schemaVersion, canonicalizerId, canonicalizerVersion, keyEpoch, token }

/-- The fields `SealedRecord::decode` reads, in order. Either vector has its memory before
    its first item is read. -/
def recordFields (policy : ValidationPolicy) (alloc : Allocator) : Reader SealedRecord := do
  let domain ← takeBytes policy
  Process.ensure (domain = recordDomain) (.error (.unsupportedFormat 0))
  let formatVersion ← takeU16
  Process.ensure (formatVersion = FORMAT_VERSION) (.error (.unsupportedFormat formatVersion))
  let code ← takeU8
  let suite ← Process.embed ((suiteFromCode code).mapError .error)
  let contextBytes ← takeBytes policy
  let context ← Process.embed (decodeContext contextBytes policy)
  let manifestRevision ← takeU64
  let previousManifestHash ← takeArray32
  let keyCommitment ← takeArray32
  let nonce ← takeBytes policy
  let ciphertext ← takeBytes policy
  let recipientCount ← takeLen policy.maxRecipients
  Process.ensure (alloc.envelopes recipientCount) (.panic .capacity)
  let recipients ← Process.times recipientCount (recipientFields policy)
  let indexCount ← takeLen policy.maxIndexes
  Process.ensure (alloc.indexes indexCount) (.panic .capacity)
  let indexes ← Process.times indexCount (indexFields policy)
  let signerPublicKey ← takeArray32
  let signature ← takeBytes policy
  return { formatVersion, suite, context, manifestRevision, previousManifestHash, keyCommitment,
           nonce, ciphertext, recipients, indexes, signerPublicKey, signature }

variable [Primitives]

/-- Parse the canonical binary wire encoding. Re-encoding must reproduce the input,
    and the result must pass `validateStructure`. Where no allocator is named, memory is
    granted. -/
def SealedRecord.decode (bytes : Bytes) (policy : ValidationPolicy) (alloc : Allocator := .granting) :
    Except (Fault WireError) SealedRecord := do
  let record ← readAll (recordFields policy alloc) bytes
  rejectIf (record.encode ≠ bytes) (.error .nonCanonicalEncoding)
  (record.validateStructure policy).mapError .error
  return record

end Blindplane.Wire
