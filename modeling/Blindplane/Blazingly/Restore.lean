import Blindplane.Blazingly.History

/-! # Restoring a relay from what it serves

The text that a fetch returns is a text that a store call takes, so that a relay can be
filled from another one of its policy. The order of the copies and their repetition do not
matter, and the index comes back with the records.
-/

namespace Blindplane.Blazingly

open Lib Lib.Checked Lib.Machine Crypto Wire Relay

/-- The store call of a text under a key. -/
def storeCall (key : RecordKey) (record : Bytes) : Call :=
  .storeRecord { tenant := key.tenant, objectId := key.objectId, field := key.field, record }

/-- The store call that brings over what a relay serves under a key. -/
def copyOf (store : StoreInner) (key : RecordKey) : Option Call :=
  match fetchRecord store { tenant := key.tenant, objectId := key.objectId, field := key.field } with
  | .ok response => some (storeCall key response.record)
  | .error _ => none

theorem copyOf_eq (store : StoreInner) (key : RecordKey) :
    copyOf store key = store.records[key]?.map fun record => storeCall key (base64Encode record.encode) := by
  have served : fetchRecord store { tenant := key.tenant, objectId := key.objectId, field := key.field } =
      (okOr (store.records[key]?.map SealedRecord.encode) .notFound).map fun encoded => ⟨base64Encode encoded⟩ :=
    fetchRecord_eq store _
  rw [copyOf, served]
  cases store.records[key]? <;> rfl

/-- Every record of the first store is in the second. -/
def Within (part whole : StoreInner) : Prop :=
  ∀ (key : RecordKey) (record : SealedRecord), part.records[key]? = some record → whole.records[key]? = some record

variable [Primitives] {policy : ValidationPolicy} {part whole : StoreInner}

/-- A copy puts what was served under its key, and is refused only when this is there. -/
theorem handle_copy (within : Within part whole) {key : RecordKey} {record : SealedRecord}
    (held : whole.records[key]? = some record) (eligible : Eligible policy key record.encode record) :
    let step := handle policy part (storeCall key (base64Encode record.encode))
    (∀ other : RecordKey, step.2.records[other]? = if key = other then whole.records[other]? else part.records[other]?) ∧
      (part.records[key]? = none → ∃ receipt : StoreResponse, step.1 = .stored (.ok receipt) ∧ receipt.created = true) := by
  have read : base64Decode (base64Encode record.encode) = some record.encode := base64Decode_base64Encode _
  rcases putEncoded_verdict policy part key record.encode with
    ⟨-, unfit, -⟩ | ⟨-, unfit, -⟩ | ⟨record', eligible', -, ⟨old, found, behind, done⟩ | ⟨ahead, done⟩⟩
  · exact absurd eligible (unfit record)
  · exact absurd eligible (unfit record)
  · obtain rfl := Except.ok.inj (eligible'.decodes.symm.trans eligible.decodes)
    have stepped : handle policy part (storeCall key (base64Encode record'.encode)) =
        (.stored (.error (.error .staleWrite)), part) := by
      simp only [handle, storeCall, storeRecord, read, StoreRequest.key, done]
      rfl
    rw [stepped]
    refine ⟨fun other => ?_, fun vacant => by cases vacant.symm.trans found⟩
    split
    · next same =>
      subst same
      rw [found, within key old found]
    · rfl
  · obtain rfl := Except.ok.inj (eligible'.decodes.symm.trans eligible.decodes)
    have stepped : handle policy part (storeCall key (base64Encode record'.encode)) =
        (.stored (.ok ⟨record'.context.version, record'.manifestRevision, hexEncode record'.manifestHash.toList,
          part.records[key]?.isNone⟩), part.replace key record') := by
      simp only [handle, storeCall, storeRecord, read, StoreRequest.key, done]
      rfl
    rw [stepped]
    refine ⟨fun other => ?_, fun vacant => ⟨_, rfl, by rw [vacant, Option.isNone_none]⟩⟩
    rw [StoreInner.getElem?_replace]
    split
    · next same =>
      subst same
      exact held.symm
    · rfl

theorem Within.copy (within : Within part whole) {key : RecordKey} {record : SealedRecord}
    (held : whole.records[key]? = some record) (eligible : Eligible policy key record.encode record) :
    Within (handle policy part (storeCall key (base64Encode record.encode))).2 whole := by
  intro other record found
  rw [(handle_copy within held eligible).1] at found
  split at found
  · exact found
  · exact within other record found

/-- Copies bring over the records of their keys. -/
theorem records_copies (readable : ∀ key record, whole.records[key]? = some record →
      Eligible policy key record.encode record) (within : Within part whole) (keys : List RecordKey) (other : RecordKey) :
    (final (handle policy) part (keys.filterMap (copyOf whole))).records[other]? =
      if other ∈ keys then whole.records[other]? else part.records[other]? := by
  induction keys generalizing part with
  | nil => simp only [List.filterMap_nil, final_nil, List.not_mem_nil, if_false]
  | cons key rest ih =>
      rw [List.filterMap_cons, copyOf_eq]
      cases held : whole.records[key]? with
      | none =>
          have vacant : part.records[key]? = none := by
            cases found : part.records[key]? with
            | none => rfl
            | some record => cases held.symm.trans (within key record found)
          rw [Option.map_none, ih within]
          by_cases same : other = key
          · simp only [same, held, vacant, ite_self]
          · simp only [List.mem_cons, same, false_or]
      | some record =>
          obtain ⟨brought, -⟩ := handle_copy within held (readable key record held)
          rw [Option.map_some, final_cons, ih (within.copy held (readable key record held)), brought]
          by_cases same : other = key
          · simp only [same, List.mem_cons_self, if_true, ite_self]
          · simp only [List.mem_cons, same, false_or, Ne.symm same, if_false]

/-- Copies of different keys to a relay that has none of them are all accepted. -/
theorem fresh_copies (readable : ∀ key record, whole.records[key]? = some record →
      Eligible policy key record.encode record) (within : Within part whole) {keys : List RecordKey}
    (distinct : keys.Nodup) (vacant : ∀ key ∈ keys, part.records[key]? = none) {event : CallEvent}
    (member : event ∈ trace (handle policy) part (keys.filterMap (copyOf whole))) :
    ∃ receipt : StoreResponse, event.output = .stored (.ok receipt) ∧ receipt.created = true := by
  induction keys generalizing part with
  | nil => exact absurd member List.not_mem_nil
  | cons key rest ih =>
      obtain ⟨here, later⟩ := List.forall_mem_cons.mp vacant
      rw [List.filterMap_cons, copyOf_eq] at member
      cases held : whole.records[key]? with
      | none =>
          rw [held, Option.map_none] at member
          exact ih within distinct.of_cons later member
      | some record =>
          obtain ⟨brought, accepted⟩ := handle_copy within held (readable key record held)
          rw [held, Option.map_some, trace_cons] at member
          rcases List.mem_cons.mp member with rfl | after
          · exact accepted here
          · refine ih (within.copy held (readable key record held)) distinct.of_cons (fun other inRest => ?_) after
            have apart : key ≠ other := by
              rintro rfl
              exact (List.nodup_cons.mp distinct).1 inRest
            rw [brought, if_neg apart, later other inRest]

/-- A relay that is given what another one of its policy serves under some keys holds the
    same records under these keys, and all of the other relay when the keys are all; and
    where no key is repeated every copy is accepted as new. -/
theorem copies_restore (policy : ValidationPolicy) (calls : List Call) (keys : List RecordKey) :
    let store := final (handle policy) StoreInner.empty calls
    let copies := keys.filterMap (copyOf store)
    let restored := final (handle policy) StoreInner.empty copies
    (∀ key : RecordKey, restored.records[key]? = if key ∈ keys then store.records[key]? else none) ∧
      ((∀ key : RecordKey, store.records[key]?.isSome → key ∈ keys) → restored = store) ∧
      (keys.Nodup → ∀ event ∈ trace (handle policy) StoreInner.empty copies,
        ∃ receipt : StoreResponse, event.output = .stored (.ok receipt) ∧ receipt.created = true) := by
  intro store copies restored
  have readable := (mirrors_calls policy calls).readable
  have within : Within StoreInner.empty store := fun key record found => by simp [StoreInner.empty] at found
  have vacant : ∀ key : RecordKey, StoreInner.empty.records[key]? = none := fun key => by simp [StoreInner.empty]
  have brought : ∀ key : RecordKey, restored.records[key]? = if key ∈ keys then store.records[key]? else none :=
    fun key => (records_copies readable within keys key).trans (by rw [vacant])
  refine ⟨brought, fun all => ?_, fun distinct event member => ?_⟩
  · refine StoreInner.ext_records (consistent_calls policy copies) (consistent_calls policy calls) (funext fun key => ?_)
    rw [StoreInner.registers, brought]
    split
    · rfl
    · next absent =>
      exact (Option.not_isSome_iff_eq_none.mp fun held => absent (all key held)).symm
  · exact fresh_copies readable within distinct (fun key _ => vacant key) member

end Blindplane.Blazingly
