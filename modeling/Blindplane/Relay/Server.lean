import Blindplane.Relay.Convergence
import Blindplane.Wire.Acceptance

/-! # A relay answering one request after the other

Requests carry and answer encoded records. A write is decoded, routed and validated
before it takes the lock; the relay's own policy never changes. The sequential laws
below are about the events of a run, each with the store before and after it.
-/

namespace Blindplane.Relay

open Lib Lib.Checked Lib.Machine Crypto Wire Std

/-- One call of a client. -/
inductive Request where
  | put (key : RecordKey) (encoded : Bytes)
  | get (key : RecordKey)
  | search (tenant label : String) (keyEpoch : UInt64) (token : Vector UInt8 INDEX_TOKEN_LEN)
  deriving DecidableEq, Repr

inductive Response where
  | written (result : Except (Fault RelayError) WriteReceipt)
  | fetched (result : Except RelayError Bytes)
  | found (candidates : List Bytes)

namespace Response

/-- The request was answered with an error. -/
def IsErr : Response → Prop
  | .written result => ∃ e, result = .error e
  | .fetched result => ∃ e, result = .error e
  | .found _ => False

/-- The request was an accepted write. -/
def IsAccepted (response : Response) : Prop := ∃ receipt, response = .written (.ok receipt)

end Response

variable [Primitives]

/-- Decode a write and check its route against the authenticated context. -/
def routed (policy : ValidationPolicy) (key : RecordKey) (encoded : Bytes) :
    Except (Fault RelayError) SealedRecord := do
  let record ← (SealedRecord.decode encoded policy).mapError (Fault.map .invalid)
  rejectIf (record.context.tenant ≠ key.tenant ∨ record.context.objectId ≠ key.objectId ∨
      record.context.field ≠ key.field)
    (.error .routeContextMismatch)
  return record

/-- Accept an encoded record for a route. -/
def putEncoded (policy : ValidationPolicy) (store : StoreInner) (key : RecordKey) (encoded : Bytes) :
    Except (Fault RelayError) WriteReceipt × StoreInner :=
  match routed policy key encoded with
  | .error e => (.error e, store)
  | .ok record =>
      let (result, store) := store.put record policy
      (result.mapError .error, store)

omit [Primitives] in
/-- Fetch one record in its encoded form. -/
def getEncoded (store : StoreInner) (key : RecordKey) : Except RelayError Bytes :=
  (store.get key).map SealedRecord.encode

omit [Primitives] in
/-- Look up encoded ciphertext candidates by blind-index token. -/
def searchEncoded (store : StoreInner) (tenant label : String) (keyEpoch : UInt64)
    (token : Vector UInt8 INDEX_TOKEN_LEN) : List Bytes :=
  (store.search tenant label keyEpoch token).map SealedRecord.encode

/-- Answer one request as a whole. -/
def serve (policy : ValidationPolicy) (store : StoreInner) : Request → Response × StoreInner
  | .put key encoded =>
      let (result, store) := putEncoded policy store key encoded
      (.written result, store)
  | .get key => (.fetched (getEncoded store key), store)
  | .search tenant label keyEpoch token =>
      (.found (searchEncoded store tenant label keyEpoch token), store)

/-- A write that decodes, validates and matches its route. -/
structure Eligible (policy : ValidationPolicy) (key : RecordKey) (encoded : Bytes)
    (record : SealedRecord) : Prop where
  decodes : SealedRecord.decode encoded policy = .ok record
  validates : record.validate policy = .ok ()
  routes : RecordKey.of record = key

/-- What a write does before it takes the lock. -/
def prepare (policy : ValidationPolicy) (key : RecordKey) (encoded : Bytes) :
    Except (Fault RelayError) SealedRecord := do
  let record ← routed policy key encoded
  (record.validate policy).mapError (.error ∘ .invalid)
  return record

theorem routed_eq_ok {policy : ValidationPolicy} {key : RecordKey} {encoded : Bytes}
    {record : SealedRecord} :
    routed policy key encoded = .ok record ↔
      SealedRecord.decode encoded policy = .ok record ∧ RecordKey.of record = key := by
  have matched : ∀ decoded : SealedRecord, ¬ (decoded.context.tenant ≠ key.tenant ∨
      decoded.context.objectId ≠ key.objectId ∨ decoded.context.field ≠ key.field) ↔
        RecordKey.of decoded = key := by
    intro decoded
    cases key
    simp only [not_or, not_not, RecordKey.of, RecordKey.mk.injEq]
  simp only [routed, bind_eq_ok, mapError_eq_ok, rejectIf_eq_ok, pure_eq_ok, matched]
  constructor
  · rintro ⟨decoded, decodes, _, routes, rfl⟩
    exact ⟨decodes, routes⟩
  · rintro ⟨decodes, routes⟩
    exact ⟨record, decodes, (), routes, rfl⟩

theorem prepare_eq_ok {policy : ValidationPolicy} {key : RecordKey} {encoded : Bytes}
    {record : SealedRecord} :
    prepare policy key encoded = .ok record ↔ Eligible policy key encoded record := by
  simp only [prepare, bind_eq_ok, mapError_eq_ok, pure_eq_ok, routed_eq_ok]
  constructor
  · rintro ⟨decoded, ⟨decodes, routes⟩, _, validates, rfl⟩
    exact ⟨decodes, validates, routes⟩
  · rintro ⟨decodes, validates, routes⟩
    exact ⟨record, ⟨decodes, routes⟩, (), validates, rfl⟩

/-- A whole write is its preparation, then one critical section. -/
theorem putEncoded_eq (policy : ValidationPolicy) (store : StoreInner) (key : RecordKey)
    (encoded : Bytes) :
    putEncoded policy store key encoded =
      match prepare policy key encoded with
      | .error e => (.error e, store)
      | .ok record => ((store.commit record).1.mapError .error, (store.commit record).2) := by
  unfold putEncoded prepare
  cases routed policy key encoded with
  | error e => rfl
  | ok record =>
      cases checked : record.validate policy with
      | error e => simp [StoreInner.put, checked, bind, Except.bind, mapError_error]
      | ok _ =>
          simp [StoreInner.put, checked, bind, Except.bind, mapError_ok, pure, Except.pure]

end Blindplane.Relay
