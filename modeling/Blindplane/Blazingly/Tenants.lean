import Blindplane.Blazingly.History
import Blindplane.Lib.Unwinding
import Mathlib.Data.List.Sort

/-! # Tenants do not see each other

Every call but the probe names a tenant, and a write is accepted only for the tenant that
its record was sealed for. What one tenant is answered is therefore what it would be
answered if it were alone on the relay.
-/

namespace Blindplane.Blazingly

open Lib Lib.Checked Lib.Machine Crypto Wire Relay

/-- The tenant that a call names. -/
def Call.tenant? : Call → Option String
  | .health => none
  | .storeRecord input => some input.tenant
  | .fetchRecord input => some input.tenant
  | .searchRecords input => some input.tenant

/-- Two stores in which a tenant holds the same records. -/
structure SameFor (tenant : String) (a b : StoreInner) : Prop where
  left : a.Consistent
  right : b.Consistent
  records : ∀ key : RecordKey, key.tenant = tenant → a.records[key]? = b.records[key]?

namespace SameFor

variable {tenant : String} {a b : StoreInner}

theorem get (same : SameFor tenant a b) {key : RecordKey} (here : key.tenant = tenant) :
    getEncoded a key = getEncoded b key := by
  rw [getEncoded, getEncoded, StoreInner.get, StoreInner.get, same.records key here]

/-- A record that carries a token of the tenant is one of its records. -/
theorem mem_search (same : SameFor tenant a b) {label : String} {keyEpoch : UInt64}
    {token : Vector UInt8 INDEX_TOKEN_LEN} (record : SealedRecord) :
    record ∈ a.search tenant label keyEpoch token ↔ record ∈ b.search tenant label keyEpoch token := by
  rw [same.left.mem_search, same.right.mem_search]
  exact and_congr_left fun carries => by rw [same.records (RecordKey.of record) carries.1]

theorem search (same : SameFor tenant a b) (label : String) (keyEpoch : UInt64)
    (token : Vector UInt8 INDEX_TOKEN_LEN) :
    searchEncoded a tenant label keyEpoch token = searchEncoded b tenant label keyEpoch token := by
  let before (x y : SealedRecord) : Prop := RecordKey.order (RecordKey.of x) (RecordKey.of y) = .lt
  have irrefl : Std.Irrefl before := ⟨fun x here => by
    have equal : RecordKey.order (RecordKey.of x) (RecordKey.of x) = .eq := Std.ReflCmp.compare_self
    exact nomatch equal.symm.trans here⟩
  have antisymm : Std.Antisymm before := ⟨fun x y first second => by
    have swapped : RecordKey.order (RecordKey.of x) (RecordKey.of y) =
        (RecordKey.order (RecordKey.of y) (RecordKey.of x)).swap := Std.OrientedCmp.eq_swap
    exact nomatch first.symm.trans (swapped.trans (congrArg Ordering.swap second))⟩
  have equal : a.search tenant label keyEpoch token = b.search tenant label keyEpoch token :=
    List.Pairwise.eq_of_mem_iff (r := before) (same.left.search_ordered tenant label keyEpoch token)
      (same.right.search_ordered tenant label keyEpoch token) same.mem_search
  rw [searchEncoded, searchEncoded, equal]

variable [Primitives]

/-- A write under the tenant is answered alike, and leaves the two alike. -/
theorem put (same : SameFor tenant a b) (policy : ValidationPolicy) {key : RecordKey} (here : key.tenant = tenant)
    (encoded : Bytes) : (putEncoded policy a key encoded).1 = (putEncoded policy b key encoded).1 ∧
      SameFor tenant (putEncoded policy a key encoded).2 (putEncoded policy b key encoded).2 := by
  rw [putEncoded_eq, putEncoded_eq]
  cases prepared : prepare policy key encoded with
  | error e => exact ⟨rfl, same⟩
  | ok record =>
      have eligible := prepare_eq_ok.mp prepared
      have held : a.records[RecordKey.of record]? = b.records[RecordKey.of record]? := by
        rw [eligible.routes]
        exact same.records key here
      simp only [StoreInner.commit, held]
      cases StoreInner.admission b.records[RecordKey.of record]? record with
      | error e => exact ⟨rfl, same⟩
      | ok created =>
          refine ⟨rfl, same.left.replace record, same.right.replace record, fun other named => ?_⟩
          rw [StoreInner.getElem?_replace, StoreInner.getElem?_replace, same.records other named]

/-- A write under another tenant does not show. -/
theorem put_elsewhere (same : SameFor tenant a b) (policy : ValidationPolicy) {key : RecordKey}
    (elsewhere : key.tenant ≠ tenant) (encoded : Bytes) : SameFor tenant (putEncoded policy a key encoded).2 b := by
  rcases putEncoded_cases policy a key encoded with ⟨record, receipt, eligible, -, done⟩ | ⟨-, e, refused⟩
  · rw [done]
    refine ⟨eligible.routes ▸ same.left.replace record, same.right, fun other named => ?_⟩
    have apart : key ≠ other := by
      rintro rfl
      exact elsewhere named
    rw [StoreInner.getElem?_replace, if_neg apart, same.records other named]
  · rw [refused]
    exact same

end SameFor

variable [Primitives]

/-- The calls of other tenants do not show to a tenant. -/
theorem unwinding_tenant (policy : ValidationPolicy) (tenant : String) :
    Unwinding (handle policy) (fun call => call.tenant? = some tenant) (SameFor tenant) where
  answers {a b call} same seen := by
    cases call with
    | health => rfl
    | storeRecord input =>
        have here : input.key.tenant = tenant := Option.some.inj seen
        simp only [handle, storeRecord]
        cases base64Decode input.record with
        | none => rfl
        | some encoded => simp only [(same.put policy here encoded).1]
    | fetchRecord input =>
        have here : input.key.tenant = tenant := Option.some.inj seen
        simp only [handle, fetchRecord, same.get here]
    | searchRecords input =>
        obtain rfl : input.tenant = tenant := Option.some.inj seen
        simp only [handle, searchRecords, same.search]
  kept {a b call} same seen := by
    cases call with
    | health => exact same
    | storeRecord input =>
        have here : input.key.tenant = tenant := Option.some.inj seen
        simp only [handle, storeRecord]
        cases base64Decode input.record with
        | none => exact same
        | some encoded => exact (same.put policy here encoded).2
    | fetchRecord input => exact same
    | searchRecords input => exact same
  hidden {a b call} same unseen := by
    cases call with
    | health => exact same
    | storeRecord input =>
        simp only [handle, storeRecord]
        cases base64Decode input.record with
        | none => exact same
        | some encoded => exact same.put_elsewhere policy (fun named => unseen (congrArg some named)) encoded
    | fetchRecord input => exact same
    | searchRecords input => exact same

/-- Along any run, a tenant is answered what it would be answered if no other tenant made
    a call, and is left with the same records. -/
theorem tenants_isolated (policy : ValidationPolicy) (tenant : String) (calls : List Call) :
    let own (call : Call) : Bool := decide (call.tenant? = some tenant)
    ((trace (handle policy) StoreInner.empty calls).filter fun event => own event.input).map Event.output =
        (trace (handle policy) StoreInner.empty (calls.filter own)).map Event.output ∧
      ∀ key : RecordKey, key.tenant = tenant →
        (final (handle policy) StoreInner.empty calls).records[key]? =
          (final (handle policy) StoreInner.empty (calls.filter own)).records[key]? := by
  have initial : SameFor tenant StoreInner.empty StoreInner.empty :=
    ⟨StoreInner.consistent_empty, StoreInner.consistent_empty, fun _ _ => rfl⟩
  exact ⟨(unwinding_tenant policy tenant).outputs initial calls, ((unwinding_tenant policy tenant).final initial calls).records⟩

end Blindplane.Blazingly
