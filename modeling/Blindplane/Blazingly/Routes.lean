import Blindplane.Blazingly.Hex
import Blindplane.Lib.Front
import Blindplane.Relay.Sequential

/-! # The HTTP routes

Three operations over one relay, and a liveness probe. Binary data crosses as text: records
in base64, hashes and search tokens in hexadecimal, each text given here by its UTF-8
bytes. A route reads the texts of its request, asks the relay, and writes the answer; it
keeps no state of its own.
-/

namespace Blindplane.Blazingly

open Lib Lib.Checked Lib.Machine Crypto Wire Relay

/-- Failures a relay can report. -/
inductive BlindplaneError where
  | recordInvalid
  | routeContextMismatch
  | malformedEncoding
  | staleWrite
  | notFound
  deriving DecidableEq, Repr

namespace BlindplaneError

def status : BlindplaneError → Nat
  | recordInvalid => 400
  | routeContextMismatch => 400
  | malformedEncoding => 400
  | staleWrite => 409
  | notFound => 404

def code : BlindplaneError → String
  | recordInvalid => "record_invalid"
  | routeContextMismatch => "route_context_mismatch"
  | malformedEncoding => "malformed_encoding"
  | staleWrite => "stale_write"
  | notFound => "record_not_found"

def message : BlindplaneError → String
  | recordInvalid => "The record failed keyless validation."
  | routeContextMismatch => "The route does not match the record's authenticated context."
  | malformedEncoding => "A field was not valid base64 or hexadecimal."
  | staleWrite => "The write does not advance the stored version."
  | notFound => "No record exists at this identity."

/-- `From<RelayError>`. -/
def ofRelay : RelayError → BlindplaneError
  | .invalid _ => recordInvalid
  | .routeContextMismatch => routeContextMismatch
  | .staleWrite _ _ => staleWrite
  | .notFound => notFound

theorem code_inj {a b : BlindplaneError} (same : a.code = b.code) : a = b := by
  cases a <;> cases b <;> first | rfl | (exact absurd same (by decide))

end BlindplaneError

/-- A record write. -/
structure StoreRequest where
  tenant : String
  objectId : String
  field : String
  record : Bytes
  deriving DecidableEq, Repr

/-- The receipt for an accepted write. -/
structure StoreResponse where
  version : UInt64
  manifestRevision : UInt64
  manifestHash : Bytes
  created : Bool
  deriving DecidableEq, Repr

/-- A record lookup by identity. -/
structure FetchRequest where
  tenant : String
  objectId : String
  field : String
  deriving DecidableEq, Repr

/-- One record, still sealed. -/
structure RecordResponse where
  record : Bytes
  deriving DecidableEq, Repr

/-- A blind-index lookup. -/
structure SearchRequest where
  tenant : String
  label : String
  keyEpoch : UInt64
  token : Bytes
  deriving DecidableEq, Repr

/-- Ciphertext candidates for a blind-index lookup. -/
structure SearchResponse where
  records : List Bytes
  deriving DecidableEq, Repr

def StoreRequest.key (input : StoreRequest) : RecordKey := ⟨input.tenant, input.objectId, input.field⟩

def FetchRequest.key (input : FetchRequest) : RecordKey := ⟨input.tenant, input.objectId, input.field⟩

/-- The token of a lookup, where its text is one. -/
def SearchRequest.readToken (input : SearchRequest) : Option (Vector UInt8 INDEX_TOKEN_LEN) :=
  (hexDecode input.token).bind (Bytes.asArray INDEX_TOKEN_LEN)

def StoreResponse.of (receipt : WriteReceipt) : StoreResponse where
  version := receipt.version
  manifestRevision := receipt.manifestRevision
  manifestHash := hexEncode receipt.manifestHash.toList
  created := receipt.created

section Operations

/-- Liveness probe. -/
def health : String := "ok"

/-- Fetch a sealed record. -/
def fetchRecord (store : StoreInner) (input : FetchRequest) : Except BlindplaneError RecordResponse := do
  let encoded ← (getEncoded store input.key).mapError .ofRelay
  return { record := base64Encode encoded }

/-- Look up ciphertext candidates by blind-index token. -/
def searchRecords (store : StoreInner) (input : SearchRequest) : Except BlindplaneError SearchResponse := do
  let token ← okOr input.readToken .malformedEncoding
  return { records := (searchEncoded store input.tenant input.label input.keyEpoch token).map base64Encode }

variable [Primitives]

/-- Store a sealed record. -/
def storeRecord (policy : ValidationPolicy) (store : StoreInner) (input : StoreRequest) :
    Except (Fault BlindplaneError) StoreResponse × StoreInner :=
  match base64Decode input.record with
  | none => (.error (.error .malformedEncoding), store)
  | some encoded =>
      let (receipt, store) := putEncoded policy store input.key encoded
      ((receipt.mapError (Fault.map .ofRelay)).map .of, store)

end Operations

/-- One call of the plugin's routes. -/
inductive Call where
  | health
  | storeRecord (input : StoreRequest)
  | fetchRecord (input : FetchRequest)
  | searchRecords (input : SearchRequest)
  deriving DecidableEq, Repr

inductive Reply where
  | health (text : String)
  | stored (result : Except (Fault BlindplaneError) StoreResponse)
  | fetched (result : Except BlindplaneError RecordResponse)
  | found (result : Except BlindplaneError SearchResponse)

/-- The error that a reply reports. -/
def Reply.error? : Reply → Option BlindplaneError
  | stored (.error (.error e)) => some e
  | fetched (.error e) => some e
  | found (.error e) => some e
  | _ => none

variable [Primitives]

/-- Answer one call over the shared relay. -/
def handle (policy : ValidationPolicy) (store : StoreInner) : Call → Reply × StoreInner
  | .health => (.health health, store)
  | .storeRecord input => ((.stored (storeRecord policy store input).1), (storeRecord policy store input).2)
  | .fetchRecord input => (.fetched (fetchRecord store input), store)
  | .searchRecords input => (.found (searchRecords store input), store)

section Front

/-- What a route asks of the relay, or its reply where it asks nothing. -/
def forward : Call → Reply ⊕ (Unit × Request)
  | .health => .inl (.health health)
  | .storeRecord input =>
      match base64Decode input.record with
      | none => .inl (.stored (.error (.error .malformedEncoding)))
      | some encoded => .inr ((), .put input.key encoded)
  | .fetchRecord input => .inr ((), .get input.key)
  | .searchRecords input =>
      match input.readToken with
      | none => .inl (.found (.error .malformedEncoding))
      | some token => .inr ((), .search input.tenant input.label input.keyEpoch token)

/-- The relay's answer as a route writes it. -/
def answer : Response → Reply
  | .written result => .stored ((result.mapError (Fault.map .ofRelay)).map .of)
  | .fetched result => .fetched ((result.mapError .ofRelay).map fun encoded => ⟨base64Encode encoded⟩)
  | .found candidates => .found (.ok ⟨candidates.map base64Encode⟩)

/-- The routes in front of the relay. -/
def routes : Front Call (Unit × Request) Response Reply where
  forward := forward
  answer := answer

/-- Every route does what the front does: it asks the relay once, or not at all. -/
theorem handle_eq (policy : ValidationPolicy) (store : StoreInner) (call : Call) :
    handle policy store call = routes.serve (serveFor policy) store call := by
  cases call with
  | health => rfl
  | storeRecord input =>
      simp only [handle, storeRecord, Front.serve, routes, forward]
      cases base64Decode input.record with
      | none => rfl
      | some encoded => rfl
  | fetchRecord input =>
      simp only [handle, fetchRecord, Front.serve, routes, forward, serveFor, serve, answer]
      cases getEncoded store input.key <;> rfl
  | searchRecords input =>
      simp only [handle, searchRecords, Front.serve, routes, forward]
      cases input.readToken <;> rfl

theorem handle_eq_serve (policy : ValidationPolicy) : handle policy = routes.serve (serveFor policy) :=
  funext fun store => funext fun call => handle_eq policy store call

end Front

end Blindplane.Blazingly
