import Blindplane.Lib.Front
import Blindplane.Relay.Concurrent

/-! # The relay behind axum

The same relay with another face. A record crosses as its canonical bytes, under a path that
names it, and a lookup is answered with one length-prefixed record after another. A handler
reads its request, asks the relay, and writes the answer; it keeps no state of its own.
-/

namespace Blindplane.Axum

open Lib Lib.Utf8 Lib.Bytes Lib.Checked Lib.Machine Crypto Wire Relay

/-- Map relay failures onto status codes. -/
def statusFor : RelayError → Nat
  | .invalid _ => 400
  | .routeContextMismatch => 400
  | .staleWrite _ _ => 409
  | .notFound => 404

/-- What a handler writes. -/
structure Reply where
  status : Nat
  contentType : String
  body : Bytes
  deriving DecidableEq, Repr

namespace Reply

/-- A text as axum sends it. -/
def text (status : Nat) (body : String) : Reply where
  status
  contentType := "text/plain; charset=utf-8"
  body := asBytes body

def refusal (error : RelayError) : Reply := text (statusFor error) error.display

def receipt (receipt : WriteReceipt) : Reply where
  status := 200
  contentType := "application/json"
  body := asBytes s!"\x7b\"version\":{receipt.version},\"manifest_revision\":{receipt.manifestRevision},\"created\":{receipt.created}\x7d"

def octets (body : Bytes) : Reply where
  status := 200
  contentType := "application/octet-stream"
  body

end Reply

/-- One length-prefixed record after another. -/
def frames (found : List Bytes) : Bytes :=
  found.foldl (fun out record => out ++ u32 (UInt32.ofNat record.length) ++ record) []

/-- A length that the prefix cannot hold is cut to its low bits. -/
theorem frames_eq (found : List Bytes) : frames found = found.flatMap (framed 4) := by
  have prefixed : ∀ record : Bytes, u32 (UInt32.ofNat record.length) ++ record = framed 4 record := by
    intro record
    have cut : (UInt32.ofNat record.length).toNat = record.length % 256 ^ 4 := UInt32.toNat_ofNat'
    rw [u32, cut, be_mod, framed]
  have pushed : ∀ out : Bytes,
      found.foldl (fun out record => out ++ u32 (UInt32.ofNat record.length) ++ record) out =
        out ++ found.flatMap (framed 4) := by
    induction found with
    | nil => simp
    | cons record rest ih =>
        intro out
        rw [List.foldl_cons, ih, List.flatMap_cons, List.append_assoc out, prefixed, List.append_assoc]
  exact pushed []

/-- Records short enough for their prefixes are read back from their frames in one way. -/
theorem frames_inj {found other : List Bytes} (short : ∀ record ∈ found, record.length < 2 ^ 32)
    (short' : ∀ record ∈ other, record.length < 2 ^ 32) (same : frames found = frames other) : found = other := by
  rw [frames_eq, frames_eq] at same
  refine (framed_delimited 4).sequenced (fun record empty => ?_) short short' same
  have length := congrArg List.length empty
  rw [framed_length, List.length_nil] at length
  omega

section Handlers

/-- The record itself, still sealed. -/
def fetchRecord (store : StoreInner) (tenant objectId field : String) : Reply :=
  match getEncoded store ⟨tenant, objectId, field⟩ with
  | .ok encoded => .octets encoded
  | .error error => .refusal error

/-- Equality by a blind index token of exactly 16 bytes. -/
def searchRecords (store : StoreInner) (tenant label : String) (keyEpoch : UInt64) (body : Bytes) : Reply :=
  match asArray INDEX_TOKEN_LEN body with
  | none => .text 400 "token must be 16 bytes"
  | some token => .octets (frames (searchEncoded store tenant label keyEpoch token))

variable [Primitives]

/-- The body is the canonical record encoding, verbatim. There is no reply where the relay panics. -/
def storeRecord (policy : ValidationPolicy) (store : StoreInner) (tenant objectId field : String) (body : Bytes) :
    Option Reply × StoreInner :=
  match putEncoded policy store ⟨tenant, objectId, field⟩ body with
  | (.ok receipt, store) => (some (.receipt receipt), store)
  | (.error (.error error), store) => (some (.refusal error), store)
  | (.error (.panic _), store) => (none, store)

end Handlers

/-- One call as its handler is given it: the parts of the path and the body. axum itself turns
    away a body beyond its own limit, before any handler. -/
inductive Call where
  | health
  | storeRecord (tenant objectId field : String) (body : Bytes)
  | fetchRecord (tenant objectId field : String)
  | searchRecords (tenant label : String) (keyEpoch : UInt64) (body : Bytes)
  deriving DecidableEq, Repr

variable [Primitives]

/-- Answer one call over the shared relay. -/
def handle (policy : ValidationPolicy) (store : StoreInner) : Call → Option Reply × StoreInner
  | .health => (some (.text 200 "ok"), store)
  | .storeRecord tenant objectId field body => storeRecord policy store tenant objectId field body
  | .fetchRecord tenant objectId field => (some (fetchRecord store tenant objectId field), store)
  | .searchRecords tenant label keyEpoch body => (some (searchRecords store tenant label keyEpoch body), store)

section Front

/-- What a handler asks of the relay, or its reply where it asks nothing. -/
def forward : Call → Option Reply ⊕ (Unit × Request)
  | .health => .inl (some (.text 200 "ok"))
  | .storeRecord tenant objectId field body => .inr ((), .put ⟨tenant, objectId, field⟩ body)
  | .fetchRecord tenant objectId field => .inr ((), .get ⟨tenant, objectId, field⟩)
  | .searchRecords tenant label keyEpoch body =>
      match asArray INDEX_TOKEN_LEN body with
      | none => .inl (some (.text 400 "token must be 16 bytes"))
      | some token => .inr ((), .search tenant label keyEpoch token)

/-- The relay's answer as a handler writes it. -/
def answer : Response → Option Reply
  | .written (.ok receipt) => some (.receipt receipt)
  | .written (.error (.error error)) => some (.refusal error)
  | .written (.error (.panic _)) => none
  | .fetched (.ok encoded) => some (.octets encoded)
  | .fetched (.error error) => some (.refusal error)
  | .found candidates => some (.octets (frames candidates))

/-- The router in front of the relay. -/
def router : Front Call (Unit × Request) Response (Option Reply) where
  forward := forward
  answer := answer

/-- Every handler does what the front does: it asks the relay once, or not at all. -/
theorem handle_eq (policy : ValidationPolicy) (store : StoreInner) (call : Call) :
    handle policy store call = router.serve (serveFor policy) store call := by
  cases call with
  | health => rfl
  | storeRecord tenant objectId field body =>
      simp only [handle, storeRecord, Front.serve, router, forward, serveFor, serve]
      cases putEncoded policy store ⟨tenant, objectId, field⟩ body with
      | mk result store =>
          rcases result with (_ | _) | _ <;> rfl
  | fetchRecord tenant objectId field =>
      simp only [handle, fetchRecord, Front.serve, router, forward, serveFor, serve]
      cases getEncoded store ⟨tenant, objectId, field⟩ <;> rfl
  | searchRecords tenant label keyEpoch body =>
      simp only [handle, searchRecords, Front.serve, router, forward]
      cases asArray INDEX_TOKEN_LEN body <;> rfl

theorem handle_eq_serve (policy : ValidationPolicy) : handle policy = router.serve (serveFor policy) :=
  funext fun store => funext fun call => handle_eq policy store call

end Front

end Blindplane.Axum
