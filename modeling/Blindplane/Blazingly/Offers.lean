import Blindplane.Blazingly.History
import Blindplane.Lib.Register

/-! # The routes as a family of registers

Whatever else a call does, it offers at most one record, to the register of its key, and
only a higher rank gets in. A run is the sequence of its offers: a call that is repeated,
delayed or refused does not show in what the relay holds in the end.
-/

namespace Blindplane.Blazingly

open Lib Lib.Checked Lib.Machine Lib.Register Crypto Wire Relay

variable [Primitives]

/-- The record that a call offers to the register of its key. -/
def offered (policy : ValidationPolicy) : Call → Option SealedRecord
  | .storeRecord input => (base64Decode input.record).bind fun encoded => (prepare policy input.key encoded).toOption
  | _ => none

theorem offered_storeRecord {policy : ValidationPolicy} {input : StoreRequest} {record : SealedRecord} :
    offered policy (.storeRecord input) = some record ↔
      ∃ encoded, base64Decode input.record = some encoded ∧ Eligible policy input.key encoded record := by
  simp only [offered, Option.bind_eq_some_iff, ← prepare_eq_ok]
  refine exists_congr fun encoded => and_congr_right fun _ => ?_
  cases prepare policy input.key encoded <;> simp [Except.toOption]

theorem registers_handle (policy : ValidationPolicy) (store : StoreInner) (call : Call) :
    (handle policy store call).2.registers =
      (offered policy call).elim store.registers (offer RecordKey.of rank store.registers) := by
  cases call with
  | health => rfl
  | fetchRecord input => rfl
  | searchRecords input => rfl
  | storeRecord input =>
      simp only [handle, storeRecord, offered]
      cases base64Decode input.record with
      | none => rfl
      | some encoded =>
          simp only [Option.bind_some, putEncoded_eq]
          cases prepare policy input.key encoded with
          | error e => rfl
          | ok record => exact store.registers_commit record

/-- A run leaves what its offers leave. -/
theorem registers_calls (policy : ValidationPolicy) (store : StoreInner) (calls : List Call) :
    (final (handle policy) store calls).registers =
      (calls.filterMap (offered policy)).foldl (offer RecordKey.of rank) store.registers := by
  induction calls generalizing store with
  | nil => rfl
  | cons call rest ih =>
      rw [final_cons, ih, registers_handle, List.filterMap_cons]
      cases offered policy call <;> rfl

/-- A relay holds, for each key, a record of the greatest rank it was offered. -/
theorem greatest_calls (policy : ValidationPolicy) (calls : List Call) :
    Greatest RecordKey.of rank {record | record ∈ calls.filterMap (offered policy)}
      (final (handle policy) StoreInner.empty calls).registers := by
  have vacant : StoreInner.empty.registers = fun _ => none := by
    funext key
    simp [StoreInner.registers, StoreInner.empty]
  rw [registers_calls, vacant]
  have fresh : Greatest RecordKey.of rank (∅ : Set SealedRecord) fun _ => none := greatest_empty
  simpa using fresh.offers (calls.filterMap (offered policy))

/-- What a run has offered can be offered again to no effect. -/
theorem handle_again {policy : ValidationPolicy} {store : StoreInner} (consistent : store.Consistent)
    {seen : Set SealedRecord} (greatest : Greatest RecordKey.of rank seen store.registers) {call : Call}
    (old : ∀ record, offered policy call = some record → record ∈ seen) : (handle policy store call).2 = store := by
  refine StoreInner.ext_records (consistent_handle consistent call) consistent ?_
  rw [registers_handle]
  cases made : offered policy call with
  | none => rfl
  | some record => exact greatest.offer_seen (old record made)

/-- Two runs that offer the same records, however often, in whatever order and among
    whatever other calls, leave the same store, where no two of the records tie; and
    offering again what a run has offered changes nothing. -/
theorem retries_harmless (policy : ValidationPolicy) (calls : List Call) :
    (∀ others : List Call,
      (∀ record, record ∈ calls.filterMap (offered policy) ↔ record ∈ others.filterMap (offered policy)) →
      Tieless RecordKey.of rank {record | record ∈ calls.filterMap (offered policy)} →
        final (handle policy) StoreInner.empty calls = final (handle policy) StoreInner.empty others) ∧
    ∀ again : List Call, again ⊆ calls →
      final (handle policy) StoreInner.empty (calls ++ again) = final (handle policy) StoreInner.empty calls := by
  refine ⟨fun others same tieless => ?_, fun again repeated => ?_⟩
  · refine StoreInner.ext_records (consistent_calls policy calls) (consistent_calls policy others)
      (funext fun key => Option.ext fun record => ?_)
    have greatest := greatest_calls policy others
    rw [show {record | record ∈ others.filterMap (offered policy)} =
      {record | record ∈ calls.filterMap (offered policy)} from Set.ext fun record => (same record).symm] at greatest
    rw [(greatest_calls policy calls).eq_some_iff tieless, greatest.eq_some_iff tieless]
  · rw [final_append]
    induction again with
    | nil => rfl
    | cons call rest ih =>
        obtain ⟨member, later⟩ := List.cons_subset.mp repeated
        have seen : ∀ record, offered policy call = some record → record ∈ calls.filterMap (offered policy) :=
          fun record made => List.mem_filterMap.mpr ⟨call, member, made⟩
        have unmoved := handle_again (consistent_calls policy calls) (greatest_calls policy calls) seen
        rw [final_cons, unmoved, ih later]

end Blindplane.Blazingly
