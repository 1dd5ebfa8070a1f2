import Blindplane.Relay.Consistency
import Blindplane.Lib.Register
import Blindplane.Wire.Fork
import Mathlib.Data.Prod.Lex

/-! # Writes converge

Seen through its record map, the store is a family of registers ranked by version and
then revision: the two-case freshness rule of a write is the strict lexicographic order.
The order of valid writes therefore does not show in the records they leave, nor in the
index, which the records determine.
-/

namespace Blindplane.Relay

open Lib Lib.Checked Lib.Machine Lib.Register Crypto Wire Std

/-- Version first, then manifest revision. -/
def rank (record : SealedRecord) : ℕ ×ₗ ℕ :=
  toLex (record.context.version.toNat, record.manifestRevision.toNat)

theorem rank_lt_iff {a b : SealedRecord} :
    rank a < rank b ↔ a.context.version < b.context.version ∨
      a.context.version = b.context.version ∧ a.manifestRevision < b.manifestRevision := by
  simp only [rank, Prod.Lex.toLex_lt_toLex, UInt64.toNat_inj, UInt64.lt_iff_toNat_lt]

namespace StoreInner

/-- A write is admitted exactly when nothing of at least its rank is held. -/
theorem admission_eq_ok {held : Option SealedRecord} {record : SealedRecord} :
    (∃ created, admission held record = .ok created) ↔
      ∀ existing, held = some existing → rank existing < rank record := by
  cases held with
  | none => simp [admission]
  | some existing =>
      simp only [admission, Option.some.injEq, forall_eq', rank_lt_iff, gt_iff_lt]
      split
      · next stale => simp [stale.1, stale.2, eq_comm]
      · next fresh =>
        refine iff_of_true ⟨false, rfl⟩ ?_
        rcases not_and_or.mp fresh with content | manifest
        · exact .inl (not_not.mp content)
        · exact .inr ((not_not.mp manifest).imp_left Eq.symm)

/-- The record map, as a family of registers. -/
def registers (store : StoreInner) (key : RecordKey) : Option SealedRecord := store.records[key]?

theorem ext_records {a b : StoreInner} (consistentA : a.Consistent) (consistentB : b.Consistent)
    (same : a.registers = b.registers) : a = b := by
  have records : a.records = b.records := ExtTreeMap.ext_getElem? (congrFun same)
  have index : a.index = b.index := InvertedIndex.ext consistentA.tidy consistentB.tidy
    fun token key => by rw [consistentA.holds, consistentB.holds, records]
  cases a
  cases b
  exact congrArg₂ StoreInner.mk records index

theorem registers_replace (store : StoreInner) (key : RecordKey) (record : SealedRecord) :
    (store.replace key record).registers = Function.update store.registers key (some record) := by
  funext other
  simp only [registers, getElem?_replace, Function.update_apply, eq_comm]

variable [Primitives]

/-- A critical write section is an offer to the register of its key. -/
theorem registers_commit (store : StoreInner) (record : SealedRecord) :
    (store.commit record).2.registers = offer RecordKey.of rank store.registers record := by
  have admitted : (∃ created, admission store.records[RecordKey.of record]? record = .ok created) ↔
      Admits RecordKey.of rank store.registers record := admission_eq_ok
  rcases store.commit_cases record with ⟨created, fresh, done⟩ | ⟨e, stale, refused⟩
  · rw [done, offer, if_pos (admitted.mp ⟨created, fresh⟩), registers_replace]
  · have refusal : ¬ Admits RecordKey.of rank store.registers record := by
      rw [← admitted, stale]
      simp
    rw [refused, offer, if_neg refusal]

theorem put_valid (store : StoreInner) {record : SealedRecord} {policy : ValidationPolicy}
    (valid : record.validate policy = .ok ()) : store.put record policy = store.commit record := by
  simp only [put, valid]

/-- The store that valid writes leave, as registers. -/
theorem registers_puts {store : StoreInner} {policy : ValidationPolicy} {records : List SealedRecord}
    (valid : ∀ record ∈ records, record.validate policy = .ok ()) :
    (final call store (records.map (⟨·, policy⟩))).registers =
      records.foldl (offer RecordKey.of rank) store.registers := by
  induction records generalizing store with
  | nil => rfl
  | cons record rest ih =>
      obtain ⟨first, later⟩ := List.forall_mem_cons.mp valid
      rw [List.map_cons, final_cons, ih later, List.foldl_cons, call, put_valid store first,
        registers_commit]

theorem consistent_calls (calls : List PutCall) : (final call empty calls).Consistent :=
  final_invariant consistent_empty fun _ holds input _ => holds.put input.record input.policy

theorem greatest_puts {policy : ValidationPolicy} {records : List SealedRecord}
    (valid : ∀ record ∈ records, record.validate policy = .ok ()) :
    Greatest RecordKey.of rank {record | record ∈ records}
      (final call empty (records.map (⟨·, policy⟩))).registers := by
  have vacant : empty.registers = fun _ => none := by
    funext key
    simp [registers, empty]
  rw [registers_puts valid, vacant]
  have fresh : Greatest RecordKey.of rank ∅ fun _ => none := greatest_empty
  simpa using fresh.offers records

/-- Valid records without ties, written in any two orders, leave one store: for each key
    the record of greatest rank, and the index of those records. -/
theorem puts_converge {policy : ValidationPolicy} {first second : List SealedRecord}
    (reordered : first.Perm second)
    (valid : ∀ record ∈ first, record.validate policy = .ok ())
    (tieless : ∀ a ∈ first, ∀ b ∈ first, RecordKey.of a = RecordKey.of b → rank a = rank b → a = b) :
    let storeA := final call empty (first.map (⟨·, policy⟩))
    let storeB := final call empty (second.map (⟨·, policy⟩))
    storeA = storeB ∧
      (∀ key record, storeA.records[key]? = some record ↔
        record ∈ first ∧ RecordKey.of record = key ∧
          ∀ other ∈ first, RecordKey.of other = key → rank other ≤ rank record) ∧
      (∀ key, storeA.get key = storeB.get key) ∧
      ∀ tenant label keyEpoch token,
        storeA.search tenant label keyEpoch token = storeB.search tenant label keyEpoch token := by
  intro storeA storeB
  have greatestA := greatest_puts valid
  have greatestB := greatest_puts fun record member => valid record (reordered.mem_iff.mpr member)
  have heldA : ∀ key record, storeA.registers key = some record ↔ _ := fun key record =>
    greatestA.eq_some_iff tieless
  have members : {record | record ∈ second} = {record | record ∈ first} :=
    Set.ext fun record => reordered.mem_iff.symm
  have heldB : ∀ key record, storeB.registers key = some record ↔ _ := fun key record =>
    (members ▸ greatestB).eq_some_iff tieless
  have same : storeA = storeB := by
    refine ext_records (consistent_calls _) (consistent_calls _) (funext fun key => ?_)
    refine Option.ext fun record => ?_
    rw [heldA, heldB]
  refine ⟨same, heldA, fun key => ?_, fun tenant label keyEpoch token => ?_⟩
  · rw [same]
  · rw [same]

omit [Primitives] in
theorem two_puts_converge :
    let call := @call FreshnessHead.chainPrimitives
    let genesis := PutCall.mk FreshnessHead.genesisRecord authorPolicy
    let next := PutCall.mk FreshnessHead.nextRecord authorPolicy
    final call empty [genesis, next] = final call empty [next, genesis] := by
  let _ := FreshnessHead.chainPrimitives
  have valid : ∀ record ∈ [FreshnessHead.genesisRecord, FreshnessHead.nextRecord],
      record.validate authorPolicy = .ok () := by
    simp only [List.mem_cons, List.not_mem_nil, or_false, forall_eq_or_imp, forall_eq]
    exact ⟨FreshnessHead.genesis_validates, FreshnessHead.next_validates⟩
  exact (puts_converge (List.Perm.swap FreshnessHead.nextRecord FreshnessHead.genesisRecord [])
    valid (by decide)).1

end StoreInner

end Blindplane.Relay
