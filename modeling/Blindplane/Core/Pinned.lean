import Blindplane.Core.Lineage
import Blindplane.Wire.Head

/-! # Opening against a prepared signer

Pinning an author is a per-session act, and preparation pays for the key once. What is
opened against a prepared signer, and every error on the way, is what opening with the
key's bytes gives.
-/

namespace Blindplane.Wire.SealedRecord

open Lib Lib.Checked Crypto

variable [Primitives]

/-- The prepared check is that of the key it was prepared from. -/
structure Prepares (verifier : Primitives.PreparedVerifier) (publicKey : Vector UInt8 32) : Prop where
  key : Primitives.publicKey verifier = publicKey
  verifies : ∀ message signature, Primitives.preparedVerifyStrict verifier message signature =
    Primitives.verifyStrict publicKey message signature

/-- Pinning by the verifier is pinning by a policy that allows its key alone. -/
theorem validatePinned_eq {verifier : Primitives.PreparedVerifier} {publicKey : Vector UInt8 32}
    (prepares : Prepares verifier publicKey) (record : SealedRecord) (policy : ValidationPolicy) :
    record.validatePinned verifier policy = record.validate { policy with allowedSigners := [publicKey] } := by
  have limits : record.validateLimits { policy with allowedSigners := [publicKey] } =
      record.validateLimits policy := rfl
  rw [validatePinned, validate, validateStructure, limits, prepares.key]
  simp only [prepares.verifies]
  cases record.validateLimits policy with
  | error e => rfl
  | ok _ =>
      cases Bytes.asArray 64 record.signature with
      | none => rfl
      | some signature =>
          simp only [okOr_some_bind]
          rw [rejectIf_bind_of_not (List.cons_ne_nil publicKey [])]
          by_cases own : record.signerPublicKey = publicKey
          · have allowed : ¬ record.signerPublicKey ∉ [publicKey] := by simp [own]
            rw [if_pos own, rejectIf, if_neg allowed, own]
            cases Primitives.verifyStrict publicKey record.signingBytes signature <;> rfl
          · have stranger : record.signerPublicKey ∉ [publicKey] := by simp [own]
            rw [if_neg own, rejectIf, if_pos stranger]
            rfl

end Blindplane.Wire.SealedRecord

namespace Blindplane.Core

open Lib Lib.Checked Crypto Wire

/-- An expected signer whose verification state is prepared once. -/
structure PinnedSigner [Primitives] where
  verifier : Primitives.PreparedVerifier

/-- Prepare a pinned author key for repeated verification. -/
def PinnedSigner.new [Primitives]
    (prepare : Vector UInt8 32 → Except SignatureError Primitives.PreparedVerifier)
    (publicKey : Vector UInt8 32) : Except CryptoError PinnedSigner :=
  match prepare publicKey with
  | .ok verifier => .ok { verifier }
  | .error _ => .error .invalidSignerKey

section Opening

variable [ClientPrimitives]

/-- `open` against a signer prepared once. -/
def openPinned (record : SealedRecord) (recipient : RecipientKeypair) (signer : PinnedSigner) :
    Except CryptoError Bytes := do
  (record.validatePinned signer.verifier .default).mapError .wire
  openValidated record recipient

/-- Open only when the record matches a persisted client freshness head. -/
def openAtHead (record : SealedRecord) (recipient : RecipientKeypair) (expectedSigner : Vector UInt8 32)
    (head : FreshnessHead) : Except CryptoError Bytes := do
  (head.verifyCurrent record (policyFor expectedSigner)).mapError .wire
  Core.open record recipient expectedSigner

/-- `openAtHead` against a signer prepared once. -/
def openAtHeadPinned (record : SealedRecord) (recipient : RecipientKeypair) (signer : PinnedSigner)
    (head : FreshnessHead) : Except CryptoError Bytes := do
  (head.verifyCurrentPinned record signer.verifier .default).mapError .wire
  (record.validatePinned signer.verifier .default).mapError .wire
  openValidated record recipient

/-- Every pinned call gives what its cold counterpart gives for the same key. -/
theorem pinned_agrees {prepare : Vector UInt8 32 → Except SignatureError Primitives.PreparedVerifier}
    {publicKey : Vector UInt8 32} {signer : PinnedSigner} (prepared : PinnedSigner.new prepare publicKey = .ok signer)
    (agrees : ∀ verifier, prepare publicKey = .ok verifier → SealedRecord.Prepares verifier publicKey)
    (record : SealedRecord) (policy : ValidationPolicy) (recipient : RecipientKeypair) (head : FreshnessHead) :
    record.validatePinned signer.verifier policy =
        record.validate { policy with allowedSigners := [publicKey] } ∧
      openPinned record recipient signer = Core.open record recipient publicKey ∧
      openAtHeadPinned record recipient signer head = openAtHead record recipient publicKey head := by
  have prepares : SealedRecord.Prepares signer.verifier publicKey := by
    rw [PinnedSigner.new] at prepared
    cases key : prepare publicKey with
    | error e => rw [key] at prepared; cases prepared
    | ok verifier =>
        rw [key] at prepared
        obtain rfl := Except.ok.inj prepared
        exact agrees verifier key
  have validated := SealedRecord.validatePinned_eq prepares record
  refine ⟨validated policy, ?_, ?_⟩
  · rw [openPinned, validated, Core.open]
    rfl
  · have current : head.verifyCurrentPinned record signer.verifier .default =
        head.verifyCurrent record (policyFor publicKey) := by
      rw [FreshnessHead.verifyCurrentPinned, validated, FreshnessHead.verifyCurrent]
      rfl
    rw [openAtHeadPinned, current, validated, openAtHead, Core.open]
    rfl

end Opening

section Sample

attribute [local instance] lineagePrimitives

/-- The recorded check only knows the author's signatures. -/
private theorem recorded_prepares :
    SealedRecord.Prepares (show Primitives.PreparedVerifier from ()) sampleAuthor.publicKey where
  key := rfl
  verifies message signature := by
    have own : sampleAuthor.publicKey = lineageRecording.author := rfl
    show ite _ _ _ = ite _ _ _
    simp only [own, true_and]

/-- The rekeyed record of the recorded lineage, pinned by its author. -/
theorem rekeyed_record_pinned :
    openPinned rekeyedRecord bob ⟨()⟩ = Core.open rekeyedRecord bob sampleAuthor.publicKey :=
  (@pinned_agrees _ (fun _ => .ok ()) sampleAuthor.publicKey ⟨()⟩ rfl (fun _ _ => recorded_prepares) rekeyedRecord
    .default bob (FreshnessHead.fromValidated rekeyedRecord)).2.1

end Sample

end Blindplane.Core
