import Blindplane.Wire.Limits
import Blindplane.Lib.Machine

/-! # Client-persisted freshness checkpoints

A head follows one record through its signed hash chain. An advance is given with both
its verdict and the head it leaves behind, so that what a refusal leaves behind is a
result. The successor revision saturates, as in the source, and the last section says
exactly which runs that touches.
-/

namespace Blindplane.Wire

open Lib Lib.Checked Lib.Machine Crypto

/-- Client-persisted freshness checkpoint for one record. -/
structure FreshnessHead where
  tenant : String
  objectId : String
  field : String
  manifestRevision : UInt64
  contentVersion : UInt64
  epoch : UInt64
  manifestHash : Vector UInt8 32
  signerPublicKey : Vector UInt8 32
  deriving DecidableEq, Repr

/-- `u64::MAX`. -/
def maxRevision : UInt64 := 0xFFFFFFFFFFFFFFFF

/-- `u64::saturating_add`. -/
def saturatingAdd (a b : UInt64) : UInt64 :=
  if a.toNat + b.toNat < 2 ^ 64 then a + b else maxRevision

theorem saturatingAdd_one_of_lt {a : UInt64} (below : a ≠ maxRevision) :
    (saturatingAdd a 1).toNat = a.toNat + 1 := by
  have bound := a.toNat_lt
  have apart : a.toNat ≠ 2 ^ 64 - 1 := fun same => below (UInt64.toNat_inj.mp same)
  have one : (1 : UInt64).toNat = 1 := rfl
  rw [saturatingAdd, one, if_pos (by omega), UInt64.toNat_add, one, Nat.mod_eq_of_lt (by omega)]

theorem saturatingAdd_max : saturatingAdd maxRevision 1 = maxRevision := by decide

namespace FreshnessHead

def sameIdentity (head : FreshnessHead) (record : SealedRecord) : Prop :=
  head.tenant = record.context.tenant ∧ head.objectId = record.context.objectId ∧
    head.field = record.context.field

instance (head : FreshnessHead) (record : SealedRecord) : Decidable (head.sameIdentity record) :=
  inferInstanceAs (Decidable (_ ∧ _))

variable [Primitives]

def fromValidated (record : SealedRecord) : FreshnessHead where
  tenant := record.context.tenant
  objectId := record.context.objectId
  field := record.context.field
  manifestRevision := record.manifestRevision
  contentVersion := record.context.version
  epoch := record.context.epoch
  manifestHash := record.manifestHash
  signerPublicKey := record.signerPublicKey

/-- Start tracking a validated, pinned record. -/
def start (record : SealedRecord) (policy : ValidationPolicy) : Except WireError FreshnessHead := do
  record.validate policy
  return fromValidated record

def requireExactHead (head : FreshnessHead) (record : SealedRecord) : Except WireError Unit :=
  rejectIf (¬ head.sameIdentity record ∨ head.manifestRevision ≠ record.manifestRevision ∨
      head.contentVersion ≠ record.context.version ∨ head.epoch ≠ record.context.epoch ∨
      head.manifestHash ≠ record.manifestHash ∨ head.signerPublicKey ≠ record.signerPublicKey)
    .rollbackDetected

/-- Require a fetched record to be exactly the persisted head. -/
def verifyCurrent (head : FreshnessHead) (record : SealedRecord) (policy : ValidationPolicy) :
    Except WireError Unit := do
  record.validate policy
  head.requireExactHead record

/-- `verifyCurrent` against a prepared signer. -/
def verifyCurrentPinned (head : FreshnessHead) (record : SealedRecord)
    (verifier : Primitives.PreparedVerifier) (policy : ValidationPolicy) : Except WireError Unit := do
  record.validatePinned verifier policy
  head.requireExactHead record

/-- Verify and advance by exactly one signed hash-chain link: the verdict, and the head
    it leaves. -/
def advance (head : FreshnessHead) (record : SealedRecord) (policy : ValidationPolicy) :
    Except WireError Unit × FreshnessHead :=
  match record.validate policy with
  | .error e => (.error e, head)
  | .ok () =>
      if ¬ head.sameIdentity record ∨ head.signerPublicKey ≠ record.signerPublicKey ∨
          record.manifestRevision ≠ saturatingAdd head.manifestRevision 1 ∨
          record.previousManifestHash ≠ head.manifestHash ∨
          record.context.version < head.contentVersion ∨ record.context.epoch < head.epoch
      then (.error .rollbackDetected, head)
      else (.ok (), fromValidated record)

theorem start_eq_ok {record : SealedRecord} {policy : ValidationPolicy} {head : FreshnessHead} :
    start record policy = .ok head ↔
      record.validate policy = .ok () ∧ fromValidated record = head := by
  simp only [start, bind_eq_ok, pure_eq_ok]
  constructor
  · rintro ⟨_, valid, starts⟩
    exact ⟨valid, starts⟩
  · intro both
    exact ⟨(), both⟩

/-- A record that continues what the head has seen, whatever its revision. -/
structure Extends (head : FreshnessHead) (record : SealedRecord) : Prop where
  identity : head.sameIdentity record
  signer : head.signerPublicKey = record.signerPublicKey
  linked : record.previousManifestHash = head.manifestHash
  version : head.contentVersion ≤ record.context.version
  epoch : head.epoch ≤ record.context.epoch

/-- Everything an advance can do. -/
theorem advance_cases (head : FreshnessHead) (record : SealedRecord) (policy : ValidationPolicy) :
    (record.validate policy = .ok () ∧ head.Extends record ∧
        record.manifestRevision = saturatingAdd head.manifestRevision 1 ∧
        head.advance record policy = (.ok (), fromValidated record)) ∨
      ¬ (record.validate policy = .ok () ∧ head.Extends record ∧
        record.manifestRevision = saturatingAdd head.manifestRevision 1) ∧
        ∃ e, head.advance record policy = (.error e, head) := by
  unfold advance
  cases checked : record.validate policy with
  | error e => exact .inr ⟨by simp, e, rfl⟩
  | ok _ =>
      simp only
      split
      · next broken =>
        refine .inr ⟨fun ⟨_, extended, revision⟩ => ?_, _, rfl⟩
        rcases broken with other | other | other | other | other | other
        · exact other extended.identity
        · exact other extended.signer
        · exact other revision
        · exact other extended.linked
        · exact UInt64.not_le.mpr other extended.version
        · exact UInt64.not_le.mpr other extended.epoch
      · next sound =>
        simp only [not_or, not_not, UInt64.not_lt] at sound
        obtain ⟨identity, signer, revision, linked, version, epoch⟩ := sound
        exact .inl ⟨trivial, ⟨identity, signer, linked, version, epoch⟩, revision, rfl⟩

/-- A record offered to a head, under the policy of that moment. -/
structure Offer where
  record : SealedRecord
  policy : ValidationPolicy

def offer (head : FreshnessHead) (offer : Offer) : Except WireError Unit × FreshnessHead :=
  head.advance offer.record offer.policy

abbrev HeadEvent := Event FreshnessHead Offer (Except WireError Unit)

/-- The one-step law of a checkpoint: the revision counts the links, and nothing about
    the chain it follows changes or goes back. -/
structure Follows (before : FreshnessHead) (record : SealedRecord) (after : FreshnessHead) :
    Prop where
  revision : after.manifestRevision.toNat = before.manifestRevision.toNat + 1
  version : before.contentVersion ≤ after.contentVersion
  epoch : before.epoch ≤ after.epoch
  tenant : after.tenant = before.tenant
  objectId : after.objectId = before.objectId
  field : after.field = before.field
  signer : after.signerPublicKey = before.signerPublicKey
  linked : record.previousManifestHash = before.manifestHash

def Lawful (event : HeadEvent) : Prop :=
  match event.output with
  | .ok () => Follows event.before event.input.record event.after
  | .error _ => event.after = event.before

/-- A head at the largest revision, offered a valid continuation at that revision. -/
structure SaturatedLink (head : FreshnessHead) (offer : Offer) : Prop where
  valid : offer.record.validate offer.policy = .ok ()
  continues : head.Extends offer.record
  exhausted : head.manifestRevision = maxRevision
  revision : offer.record.manifestRevision = maxRevision

/-- The successes of a run. -/
def successes (events : List HeadEvent) : Nat := events.countP (·.output.isOk)

theorem Extends.follows {head : FreshnessHead} {record : SealedRecord} (continues : head.Extends record)
    (revision : record.manifestRevision.toNat = head.manifestRevision.toNat + 1) :
    Follows head record (fromValidated record) where
  revision := revision
  version := continues.version
  epoch := continues.epoch
  tenant := continues.identity.1.symm
  objectId := continues.identity.2.1.symm
  field := continues.identity.2.2.symm
  signer := continues.signer.symm
  linked := continues.linked

/-- One step is lawful unless it is a saturated link. -/
theorem lawful_iff {event : HeadEvent}
    (taken : (event.output, event.after) = event.before.offer event.input) :
    Lawful event ↔ ¬ SaturatedLink event.before event.input := by
  obtain ⟨before, ⟨record, policy⟩, output, after⟩ := event
  simp only [offer] at taken
  rcases advance_cases before record policy with
    ⟨valid, continues, revision, advanced⟩ | ⟨refused, e, stayed⟩
  · obtain ⟨rfl, rfl⟩ := Prod.mk.inj (taken.trans advanced)
    simp only [Lawful]
    constructor
    · rintro follows ⟨-, -, exhausted, saturated⟩
      have counted : record.manifestRevision.toNat = before.manifestRevision.toNat + 1 :=
        follows.revision
      simp only at exhausted saturated
      rw [exhausted, saturated] at counted
      omega
    · intro unsaturated
      have below : before.manifestRevision ≠ maxRevision := fun exhausted =>
        unsaturated ⟨valid, continues, exhausted, by
          rw [revision, exhausted, saturatingAdd_max]⟩
      exact continues.follows (by rw [revision, saturatingAdd_one_of_lt below])
  · obtain ⟨rfl, rfl⟩ := Prod.mk.inj (taken.trans stayed)
    simp only [Lawful, true_iff]
    rintro ⟨valid, continues, exhausted, saturated⟩
    exact refused ⟨valid, continues, by simp only at exhausted saturated
                                        rw [exhausted, saturated, saturatingAdd_max]⟩

/-- Along a lawful run the revision counts the successes. -/
theorem revision_counts {head : FreshnessHead} {offers : List Offer}
    (lawful : ∀ event ∈ trace offer head offers, Lawful event) :
    (final offer head offers).manifestRevision.toNat =
      head.manifestRevision.toNat + successes (trace offer head offers) := by
  induction offers generalizing head with
  | nil => rfl
  | cons next rest ih =>
      obtain ⟨first, later⟩ := List.forall_mem_cons.mp lawful
      have counted := ih later
      simp only [successes] at counted
      simp only [final_cons, counted, successes, trace_cons, List.countP_cons]
      cases answer : (head.offer next).1 with
      | ok _ =>
          simp only [Lawful, answer] at first
          have revision := first.revision
          simp only [Except.isOk, Except.toBool, if_true]
          omega
      | error e =>
          simp only [Lawful, answer] at first
          rw [first]
          rfl

/-- Every advance of a run obeys the law, and the revision counts them, exactly when no
    advance is a saturated link. -/
theorem advances_lawful_iff {record : SealedRecord} {policy : ValidationPolicy} {head : FreshnessHead}
    (started : start record policy = .ok head) (offers : List Offer) :
    (∀ event ∈ trace offer head offers, Lawful event) ∧
        (final offer head offers).manifestRevision.toNat =
          record.manifestRevision.toNat + successes (trace offer head offers) ↔
      ∀ event ∈ trace offer head offers, ¬ SaturatedLink event.before event.input := by
  obtain ⟨-, rfl⟩ := start_eq_ok.mp started
  constructor
  · rintro ⟨lawful, -⟩ event member
    exact (lawful_iff (trace_step member)).mp (lawful event member)
  · intro unsaturated
    have lawful : ∀ event ∈ trace offer (fromValidated record) offers, Lawful event :=
      fun event member => (lawful_iff (trace_step member)).mpr (unsaturated event member)
    exact ⟨lawful, revision_counts lawful⟩

end FreshnessHead

section ExhaustedHead

def exhaustedSignature : Vector UInt8 64 :=
  #v[180, 123, 128, 111, 123, 246, 37, 126, 83, 157, 223, 224, 34, 48, 174, 99, 79, 109, 94, 97, 10,
    45, 136, 244, 87, 183, 212, 100, 24, 174, 12, 9, 231, 21, 13, 47, 243, 72, 186, 148, 108, 204,
    231, 183, 231, 56, 176, 130, 71, 5, 209, 24, 243, 16, 179, 43, 135, 11, 167, 245, 247, 81, 157,
    15]

/-- A record at the largest revision. -/
def exhaustedRecord : SealedRecord :=
  sampleRecord maxRevision (.replicate 32 1) exhaustedSignature

/-- Its manifest hash. -/
def exhaustedHash : Vector UInt8 32 :=
  #v[56, 169, 114, 37, 234, 118, 77, 176, 37, 120, 6, 162, 122, 56, 129, 78, 207, 235, 48, 134, 125,
    157, 137, 30, 219, 101, 13, 211, 11, 155, 236, 118]

def overrunSignature : Vector UInt8 64 :=
  #v[36, 125, 192, 33, 176, 9, 54, 37, 156, 139, 103, 117, 144, 237, 191, 28, 75, 239, 91, 189, 171,
    61, 168, 114, 232, 155, 32, 70, 134, 100, 111, 90, 117, 172, 252, 54, 46, 90, 141, 246, 138, 8,
    83, 228, 15, 178, 67, 70, 88, 161, 42, 149, 159, 225, 68, 8, 141, 239, 179, 140, 40, 212, 152,
    4]

/-- A record at the same revision, linked to the first. -/
def overrunRecord : SealedRecord := sampleRecord maxRevision exhaustedHash overrunSignature

def overrunHash : Vector UInt8 32 :=
  #v[163, 137, 224, 210, 227, 206, 21, 1, 120, 65, 151, 249, 24, 227, 208, 17, 34, 227, 39, 174, 95,
    141, 239, 127, 3, 252, 223, 44, 90, 20, 37, 227]

@[reducible] def exhaustedPrimitives : Primitives :=
  .recorded authorKey
    [(exhaustedRecord.manifestPreimage, exhaustedHash), (overrunRecord.manifestPreimage, overrunHash)]
    [(exhaustedRecord.signingBytes, exhaustedSignature),
      (overrunRecord.signingBytes, overrunSignature)]

private theorem exhausted_validates :
    @SealedRecord.validate exhaustedPrimitives exhaustedRecord authorPolicy = .ok () :=
  sampleRecord_validates (by decide) List.mem_cons_self

private theorem overrun_validates :
    @SealedRecord.validate exhaustedPrimitives overrunRecord authorPolicy = .ok () :=
  sampleRecord_validates (by decide) (List.mem_cons_of_mem _ (List.mem_singleton_self _))

private theorem exhausted_hash :
    @SealedRecord.manifestHash exhaustedPrimitives exhaustedRecord = exhaustedHash :=
  Primitives.recorded_sha256 List.lookup_cons_self

private theorem overrun_hash :
    @SealedRecord.manifestHash exhaustedPrimitives overrunRecord = overrunHash :=
  Primitives.recorded_sha256 (by decide +kernel)

private theorem exhausted_started :
    @FreshnessHead.start exhaustedPrimitives exhaustedRecord authorPolicy =
      .ok (@FreshnessHead.fromValidated exhaustedPrimitives exhaustedRecord) :=
  (@FreshnessHead.start_eq_ok exhaustedPrimitives _ _ _).mpr ⟨exhausted_validates, rfl⟩

theorem exhausted_advances_lawful_iff :
    let head := @FreshnessHead.fromValidated exhaustedPrimitives exhaustedRecord
    let offers := [FreshnessHead.Offer.mk overrunRecord authorPolicy]
    let run := trace (@FreshnessHead.offer exhaustedPrimitives) head offers
    (∀ event ∈ run, FreshnessHead.Lawful event) ∧
        (final (@FreshnessHead.offer exhaustedPrimitives) head offers).manifestRevision.toNat =
          exhaustedRecord.manifestRevision.toNat + FreshnessHead.successes run ↔
      ∀ event ∈ run, ¬ @FreshnessHead.SaturatedLink exhaustedPrimitives event.before event.input :=
  @FreshnessHead.advances_lawful_iff exhaustedPrimitives _ _ _ exhausted_started _

/-- The head of one record advances to another at the same, largest revision. -/
theorem exhausted_head_advances_in_place :
    ∃ head after, @FreshnessHead.start exhaustedPrimitives exhaustedRecord authorPolicy = .ok head ∧
      @FreshnessHead.advance exhaustedPrimitives head overrunRecord authorPolicy = (.ok (), after) ∧
      after.manifestRevision = head.manifestRevision ∧ after.manifestHash ≠ head.manifestHash := by
  let _ := exhaustedPrimitives
  refine ⟨_, FreshnessHead.fromValidated overrunRecord, exhausted_started, ?_, rfl, ?_⟩
  · rcases FreshnessHead.advance_cases (.fromValidated exhaustedRecord) overrunRecord authorPolicy
      with ⟨-, -, -, advanced⟩ | ⟨refused, -⟩
    · exact advanced
    · refine absurd ⟨overrun_validates, ⟨⟨rfl, rfl, rfl⟩, rfl, ?_, UInt64.le_refl _,
        UInt64.le_refl _⟩, rfl⟩ refused
      exact exhausted_hash.symm
  · show overrunRecord.manifestHash ≠ exhaustedRecord.manifestHash
    rw [overrun_hash, exhausted_hash]
    decide

end ExhaustedHead

end Blindplane.Wire
