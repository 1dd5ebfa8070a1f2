import Blindplane.Wire.Head
import Blindplane.Lib.HashChain

/-! # Forks and rollbacks seen from a checkpoint

What a head accepted, from the record it started at, is a history linked by manifest
hashes, and the head stands at its last record. Everything below assumes only that the
hash tells the records at hand apart.
-/

namespace Blindplane.Wire

open Lib Lib.Checked Lib.Machine Lib.HashChain Crypto

namespace FreshnessHead

/-- The records a run accepted, in order, after the one it started at. -/
def history (first : SealedRecord) (events : List HeadEvent) : List SealedRecord :=
  first :: (events.filter (·.output.isOk)).map (·.input.record)

section Runs

variable [Primitives]

/-- The head that follows a record, and what it has accepted so far. -/
structure StandsAt (head : FreshnessHead) (accepted : List SealedRecord) : Prop where
  linked : Linked SealedRecord.manifestHash SealedRecord.previousManifestHash accepted
  atLast : ∃ last, accepted.getLast? = some last ∧ head = fromValidated last

/-- One more offer extends the history by the record it accepts, or not at all. -/
theorem offer_extends (first : SealedRecord) (next : Offer) :
    (((fromValidated first).offer next).1.isOk = true ∧
        ((fromValidated first).offer next).2 = fromValidated next.record ∧
        next.record.previousManifestHash = first.manifestHash) ∨
      (((fromValidated first).offer next).1.isOk = false ∧
        ((fromValidated first).offer next).2 = fromValidated first) := by
  rcases advance_cases (fromValidated first) next.record next.policy with
    ⟨-, continues, -, advanced⟩ | ⟨-, e, stayed⟩
  · exact .inl ⟨by rw [offer, advanced]; rfl, by rw [offer, advanced], continues.linked⟩
  · exact .inr ⟨by rw [offer, stayed]; rfl, by rw [offer, stayed]⟩

theorem standsAt (first : SealedRecord) (offers : List Offer) :
    StandsAt (final offer (fromValidated first) offers)
      (history first (trace offer (fromValidated first) offers)) := by
  induction offers generalizing first with
  | nil => exact ⟨List.IsChain.singleton _, first, rfl, rfl⟩
  | cons next rest ih =>
      rw [final_cons, trace_cons]
      rcases offer_extends first next with ⟨accepted, after, linked⟩ | ⟨refused, after⟩
      · obtain ⟨chain, last, atLast, stands⟩ := ih next.record
        rw [after]
        simp only [history, List.filter_cons, accepted, if_true, List.map_cons]
        exact
          { linked := List.isChain_cons_cons.mpr ⟨linked, chain⟩
            atLast := ⟨last, by rw [List.getLast?_cons_cons]; exact atLast, stands⟩ }
      · rw [after]
        simp only [history, List.filter_cons, refused, Bool.false_eq_true, if_false]
        exact ih first

theorem verifyCurrent_eq_ok {head : FreshnessHead} {record : SealedRecord}
    {policy : ValidationPolicy} (valid : record.validate policy = .ok ()) :
    head.verifyCurrent record policy = .ok () ↔ head.requireExactHead record = .ok () := by
  simp only [verifyCurrent, valid, bind, Except.bind]

theorem verifyCurrentPinned_eq_ok {head : FreshnessHead} {record : SealedRecord}
    {verifier : Primitives.PreparedVerifier} {policy : ValidationPolicy}
    (valid : record.validatePinned verifier policy = .ok ()) :
    head.verifyCurrentPinned record verifier policy = .ok () ↔
      head.requireExactHead record = .ok () := by
  simp only [verifyCurrentPinned, valid, bind, Except.bind]

/-- The checkpoint of a record matches that record, and nothing it could be confused with. -/
theorem requireExactHead_fromValidated {records : Set SealedRecord}
    (distinct : records.InjOn SealedRecord.manifestHash) {last candidate : SealedRecord}
    (insideLast : last ∈ records) (insideCandidate : candidate ∈ records) :
    (fromValidated last).requireExactHead candidate = .ok () ↔ candidate = last := by
  simp only [requireExactHead, rejectIf_eq_ok, not_or, not_not]
  constructor
  · rintro ⟨-, -, -, -, sameHash, -⟩
    exact distinct insideCandidate insideLast sameHash.symm
  · rintro rfl
    exact ⟨⟨rfl, rfl, rfl⟩, rfl, rfl, rfl, rfl, rfl⟩

/-- Two clients whose heads carry one manifest hash accepted one history, seen from two
    starting points; and the only record either head takes for current is its last. -/
theorem forks_and_rollbacks_detected {records : Set SealedRecord}
    (distinct : records.InjOn SealedRecord.manifestHash) {firstA firstB : SealedRecord}
    {policyA policyB : ValidationPolicy} {headA headB : FreshnessHead}
    (startedA : start firstA policyA = .ok headA) (startedB : start firstB policyB = .ok headB)
    (offersA offersB : List Offer)
    (insideA : ∀ record ∈ history firstA (trace offer headA offersA), record ∈ records)
    (insideB : ∀ record ∈ history firstB (trace offer headB offersB), record ∈ records) :
    let historyA := history firstA (trace offer headA offersA)
    let historyB := history firstB (trace offer headB offersB)
    let endA := final offer headA offersA
    let endB := final offer headB offersB
    (endA.manifestHash = endB.manifestHash →
      (historyA.length ≤ historyB.length → historyA <:+ historyB) ∧
        (historyB.length ≤ historyA.length → historyB <:+ historyA)) ∧
      ∀ candidate ∈ records, ∀ policy,
        (candidate.validate policy = .ok () →
          (endA.verifyCurrent candidate policy = .ok () ↔ historyA.getLast? = some candidate)) ∧
        ∀ verifier, candidate.validatePinned verifier policy = .ok () →
          (endA.verifyCurrentPinned candidate verifier policy = .ok () ↔
            historyA.getLast? = some candidate) := by
  obtain ⟨-, rfl⟩ := start_eq_ok.mp startedA
  obtain ⟨-, rfl⟩ := start_eq_ok.mp startedB
  intro historyA historyB endA endB
  obtain ⟨linkedA, lastA, atLastA, standsA⟩ := standsAt firstA offersA
  obtain ⟨linkedB, lastB, atLastB, standsB⟩ := standsAt firstB offersB
  have lastInside : lastA ∈ records := insideA lastA (List.mem_of_getLast? atLastA)
  constructor
  · intro sameHash
    have tip : lastA.manifestHash = lastB.manifestHash := by
      simpa only [endA, endB, standsA, standsB, fromValidated] using sameHash
    exact
      ⟨linkedA.suffix_of_same_tip distinct linkedB insideA insideB atLastA atLastB tip,
        linkedB.suffix_of_same_tip distinct linkedA insideB insideA atLastB atLastA tip.symm⟩
  · intro candidate inside policy
    have current : endA.requireExactHead candidate = .ok () ↔ historyA.getLast? = some candidate := by
      rw [show endA = fromValidated lastA from standsA,
        requireExactHead_fromValidated distinct lastInside inside,
        show historyA.getLast? = some lastA from atLastA, Option.some.injEq]
      exact eq_comm
    exact ⟨fun valid => (verifyCurrent_eq_ok valid).trans current,
      fun _ valid => (verifyCurrentPinned_eq_ok valid).trans current⟩

end Runs

section TwoClients

def genesisSignature : Vector UInt8 64 :=
  #v[251, 170, 198, 174, 21, 2, 139, 51, 29, 39, 181, 59, 148, 12, 92, 169, 149, 140, 63, 218, 170,
    178, 193, 225, 169, 63, 224, 48, 148, 13, 120, 78, 5, 80, 124, 35, 130, 209, 199, 230, 178, 147,
    146, 171, 68, 148, 227, 118, 33, 165, 109, 23, 251, 155, 239, 223, 37, 130, 91, 80, 29, 6, 0,
    13]

def genesisRecord : SealedRecord := sampleRecord 1 zeroHash genesisSignature

def genesisHash : Vector UInt8 32 :=
  #v[7, 13, 65, 76, 73, 139, 130, 64, 149, 186, 214, 160, 194, 177, 134, 137, 129, 213, 104, 154, 0,
    164, 135, 184, 114, 110, 213, 97, 254, 65, 227, 139]

def nextSignature : Vector UInt8 64 :=
  #v[54, 215, 61, 130, 22, 75, 109, 105, 51, 47, 54, 240, 238, 255, 81, 96, 121, 255, 245, 180, 152,
    252, 253, 55, 55, 219, 36, 255, 36, 142, 55, 70, 195, 84, 39, 110, 37, 207, 92, 242, 171, 95,
    140, 97, 0, 116, 68, 47, 121, 86, 51, 21, 224, 158, 246, 14, 199, 211, 231, 238, 63, 182, 135,
    2]

def nextRecord : SealedRecord := sampleRecord 2 genesisHash nextSignature

def nextHash : Vector UInt8 32 :=
  #v[95, 179, 196, 253, 16, 74, 166, 208, 34, 26, 57, 230, 11, 236, 201, 10, 158, 220, 163, 78, 245,
    136, 209, 180, 172, 154, 175, 163, 148, 245, 250, 130]

@[reducible] def chainPrimitives : Primitives :=
  .recorded authorKey
    [(genesisRecord.manifestPreimage, genesisHash), (nextRecord.manifestPreimage, nextHash)]
    [(genesisRecord.signingBytes, genesisSignature), (nextRecord.signingBytes, nextSignature)]

theorem genesis_validates :
    @SealedRecord.validate chainPrimitives genesisRecord authorPolicy = .ok () :=
  sampleRecord_validates (by decide) List.mem_cons_self

theorem next_validates :
    @SealedRecord.validate chainPrimitives nextRecord authorPolicy = .ok () :=
  sampleRecord_validates (by decide) (List.mem_cons_of_mem _ (List.mem_singleton_self _))

private theorem genesis_hash :
    @SealedRecord.manifestHash chainPrimitives genesisRecord = genesisHash :=
  Primitives.recorded_sha256 List.lookup_cons_self

private theorem next_hash : @SealedRecord.manifestHash chainPrimitives nextRecord = nextHash :=
  Primitives.recorded_sha256 (by decide +kernel)

private theorem genesis_advances :
    @advance chainPrimitives (@fromValidated chainPrimitives genesisRecord) nextRecord authorPolicy =
      (.ok (), @fromValidated chainPrimitives nextRecord) := by
  let _ := chainPrimitives
  rcases advance_cases (fromValidated genesisRecord) nextRecord authorPolicy with
    ⟨-, -, -, advanced⟩ | ⟨refused, -⟩
  · exact advanced
  · refine absurd ⟨next_validates, ⟨⟨rfl, rfl, rfl⟩, rfl, ?_, UInt64.le_refl _, UInt64.le_refl _⟩,
      by decide⟩ refused
    exact genesis_hash.symm

private theorem genesis_history :
    history genesisRecord (trace (@offer chainPrimitives) (@fromValidated chainPrimitives genesisRecord)
      [⟨nextRecord, authorPolicy⟩]) = [genesisRecord, nextRecord] := by
  simp only [history, trace_cons, trace_nil, offer, genesis_advances]
  rfl

private theorem chain_distinct :
    Set.InjOn (@SealedRecord.manifestHash chainPrimitives) {genesisRecord, nextRecord} := by
  rintro a (rfl | rfl) b (rfl | rfl) same
  · rfl
  · rw [genesis_hash, next_hash] at same
    exact absurd same (by decide)
  · rw [genesis_hash, next_hash] at same
    exact absurd same (by decide)
  · rfl

/-- One client saw both records, the other started at the second. -/
theorem two_clients_agree :
    let headA := @fromValidated chainPrimitives genesisRecord
    let headB := @fromValidated chainPrimitives nextRecord
    let endA := final (@offer chainPrimitives) headA [⟨nextRecord, authorPolicy⟩]
    endA = headB ∧ [nextRecord] <:+ [genesisRecord, nextRecord] ∧
      @verifyCurrent chainPrimitives endA genesisRecord authorPolicy ≠ .ok () ∧
      @verifyCurrent chainPrimitives endA nextRecord authorPolicy = .ok () := by
  let _ := chainPrimitives
  intro headA headB endA
  have ends : endA = headB := congrArg Prod.snd genesis_advances
  have insideA : ∀ record ∈ history genesisRecord (trace offer headA [⟨nextRecord, authorPolicy⟩]),
      record ∈ ({genesisRecord, nextRecord} : Set SealedRecord) := by
    rw [genesis_history]
    simp
  have insideB : ∀ record ∈ history nextRecord (trace offer headB []),
      record ∈ ({genesisRecord, nextRecord} : Set SealedRecord) := by
    simp [history]
  obtain ⟨suffix, current⟩ := forks_and_rollbacks_detected chain_distinct
    (start_eq_ok.mpr ⟨genesis_validates, rfl⟩) (start_eq_ok.mpr ⟨next_validates, rfl⟩) _ _ insideA insideB
  rw [genesis_history] at suffix current
  refine ⟨ends, (suffix (congrArg manifestHash ends)).2 (by decide), fun accepted => ?_, ?_⟩
  · have last := ((current genesisRecord (.inl rfl) authorPolicy).1 genesis_validates).mp accepted
    exact absurd last (by decide)
  · exact ((current nextRecord (.inr rfl) authorPolicy).1 next_validates).mpr rfl

end TwoClients

end FreshnessHead

end Blindplane.Wire
