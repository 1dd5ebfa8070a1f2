import Blindplane.Wire.Limits
import Blindplane.Lib.InvertedIndex

/-! # The in-memory relay store

A map from record keys to records, and a secondary index kept in the same critical
section. Every operation takes the content behind the lock; a write gives its verdict
with the content it leaves. The critical sections do not panic, so the lock is never
poisoned.
-/

namespace Blindplane.Relay

open Lib Lib.Utf8 Lib.Checked Crypto Wire Std

/-- Identity of one stored record. -/
structure RecordKey where
  tenant : String
  objectId : String
  field : String
  deriving DecidableEq, Repr

namespace RecordKey

/-- The derived order: tenant, then object, then field, each by its bytes. -/
def order : RecordKey → RecordKey → Ordering :=
  compareLex (compareOn fun key => asBytes key.tenant)
    (compareLex (compareOn fun key => asBytes key.objectId) (compareOn fun key => asBytes key.field))

instance : TransCmp order :=
  inferInstanceAs (TransCmp (compareLex (compareOn fun key : RecordKey => asBytes key.tenant)
    (compareLex (compareOn fun key => asBytes key.objectId)
      (compareOn fun key => asBytes key.field))))

instance : LawfulEqCmp order where
  compare_self := ReflCmp.compare_self
  eq_of_compare {a b} same := by
    obtain ⟨_, _, _⟩ := a
    obtain ⟨_, _, _⟩ := b
    simp only [order, compareLex_eq_eq, compareOn, LawfulEqOrd.compare_eq_iff_eq, asBytes_inj] at same
    obtain ⟨rfl, rfl, rfl⟩ := same
    rfl

def of (record : SealedRecord) : RecordKey where
  tenant := record.context.tenant
  objectId := record.context.objectId
  field := record.context.field

end RecordKey

/-- `(tenant, label, key_epoch, token)`. -/
abbrev IndexKey := String × String × UInt64 × Vector UInt8 INDEX_TOKEN_LEN

namespace IndexKey

def order : IndexKey → IndexKey → Ordering :=
  compareLex (compareOn fun key => asBytes key.1) (compareLex (compareOn fun key => asBytes key.2.1)
    (compareLex (compareOn fun key => key.2.2.1) (compareOn fun key => key.2.2.2)))

instance : TransCmp order :=
  inferInstanceAs (TransCmp (compareLex (compareOn fun key : IndexKey => asBytes key.1)
    (compareLex (compareOn fun key => asBytes key.2.1)
      (compareLex (compareOn fun key => key.2.2.1) (compareOn fun key => key.2.2.2)))))

instance : LawfulEqCmp order where
  compare_self := ReflCmp.compare_self
  eq_of_compare {a b} same := by
    obtain ⟨_, _, _, _⟩ := a
    obtain ⟨_, _, _, _⟩ := b
    simp only [order, compareLex_eq_eq, compareOn, LawfulEqOrd.compare_eq_iff_eq, asBytes_inj] at same
    obtain ⟨rfl, rfl, rfl, rfl⟩ := same
    rfl

def of (tenant : String) (index : BlindIndex) : IndexKey :=
  (tenant, index.label, index.keyEpoch, index.token)

end IndexKey

/-- What a relay refuses to do. -/
inductive RelayError where
  | invalid (error : WireError)
  | routeContextMismatch
  | staleWrite (storedVersion offeredVersion : UInt64)
  | notFound
  deriving DecidableEq, Repr

/-- The text of a refusal. -/
def RelayError.display : RelayError → String
  | .invalid error => error.display
  | .routeContextMismatch => "route does not match the record's authenticated context"
  | .staleWrite stored offered => s!"stale write: stored version {stored}, offered {offered}"
  | .notFound => "record not found"

/-- The outcome of an accepted write. -/
structure WriteReceipt where
  version : UInt64
  manifestRevision : UInt64
  manifestHash : Vector UInt8 32
  created : Bool
  deriving DecidableEq, Repr

/-- What the lock of a `MemoryStore` guards. -/
structure StoreInner where
  records : ExtTreeMap RecordKey SealedRecord RecordKey.order
  index : InvertedIndex IndexKey RecordKey IndexKey.order RecordKey.order

namespace StoreInner

/-- `StoreInner::default`. -/
def empty : StoreInner := { records := ∅, index := ∅ }

/-- Whether a write creates its record, or is stale. -/
def admission (held : Option SealedRecord) (record : SealedRecord) : Except RelayError Bool :=
  match held with
  | none => .ok true
  | some existing =>
      let advancesContent := record.context.version > existing.context.version
      let advancesManifest := record.context.version = existing.context.version ∧
        record.manifestRevision > existing.manifestRevision
      if ¬ advancesContent ∧ ¬ advancesManifest
      then .error (.staleWrite existing.context.version record.context.version)
      else .ok false

/-- The index without the tokens of the record held at `key`. -/
def forget (store : StoreInner) (key : RecordKey) :
    InvertedIndex IndexKey RecordKey IndexKey.order RecordKey.order :=
  match store.records[key]? with
  | none => store.index
  | some previous =>
      InvertedIndex.dropAll (IndexKey.of previous.context.tenant) key store.index previous.indexes

/-- Store a record and its tokens in place of what `key` held. -/
def replace (store : StoreInner) (key : RecordKey) (record : SealedRecord) : StoreInner where
  records := store.records.insert key record
  index :=
    InvertedIndex.addAll (IndexKey.of record.context.tenant) key (store.forget key) record.indexes

variable [Primitives]

/-- The critical section of a write: everything `put` does once it holds the lock. -/
def commit (store : StoreInner) (record : SealedRecord) :
    Except RelayError WriteReceipt × StoreInner :=
  let key := RecordKey.of record
  match admission store.records[key]? record with
  | .error e => (.error e, store)
  | .ok created =>
      (.ok { version := record.context.version
             manifestRevision := record.manifestRevision
             manifestHash := record.manifestHash
             created },
        store.replace key record)

/-- Validate and store a record, refusing anything that is not strictly newer than what
    is already held. -/
def put (store : StoreInner) (record : SealedRecord) (policy : ValidationPolicy) :
    Except RelayError WriteReceipt × StoreInner :=
  match record.validate policy with
  | .error e => (.error (.invalid e), store)
  | .ok () => store.commit record

omit [Primitives]

/-- Fetch one record. -/
def get (store : StoreInner) (key : RecordKey) : Except RelayError SealedRecord :=
  okOr store.records[key]? .notFound

/-- Look up ciphertext candidates by blind-index token. -/
def search (store : StoreInner) (tenant label : String) (keyEpoch : UInt64)
    (token : Vector UInt8 INDEX_TOKEN_LEN) : List SealedRecord :=
  match store.index[(tenant, label, keyEpoch, token)]? with
  | none => []
  | some keys => keys.toList.filterMap fun key => store.records[key]?

end StoreInner

end Blindplane.Relay
