import Blindplane.Wire.Record

/-! # What the keyless limits amount to

`validateLimits` compares each envelope and each index with the one before it only.
Because the scope order is transitive, passing the loop is the same as the whole list
being strictly ascending, so identifiers never repeat within one record.
-/

namespace Blindplane.Wire

open Lib Lib.Utf8 Lib.Checked Crypto Std

/-- Strictly smaller as an `(identifier, epoch)` pair. -/
def ScopeLt (a b : String × UInt64) : Prop := scopeOrder a b = .lt

instance (a b : String × UInt64) : Decidable (ScopeLt a b) :=
  inferInstanceAs (Decidable (scopeOrder a b = .lt))

theorem ScopeLt.trans {a b c : String × UInt64} (ab : ScopeLt a b) (bc : ScopeLt b c) : ScopeLt a c :=
  @TransCmp.lt_trans _ scopeOrder _ _ _ _ ab bc

/-- A nonempty identifier no longer than the limit. -/
def LabelWithin (max : Usize) (value : String) : Prop :=
  0 < (asBytes value).length ∧ (asBytes value).length ≤ max.toNat

structure ContextWithin (policy : ValidationPolicy) (context : RecordContext) : Prop where
  tenant : LabelWithin policy.maxIdentifierBytes context.tenant
  objectId : LabelWithin policy.maxIdentifierBytes context.objectId
  field : LabelWithin policy.maxIdentifierBytes context.field
  epoch : context.epoch ≠ 0
  version : context.version ≠ 0
  schemaVersion : context.schemaVersion ≠ 0

structure EnvelopeWithin (policy : ValidationPolicy) (envelope : RecipientEnvelope) : Prop where
  recipientId : LabelWithin policy.maxIdentifierBytes envelope.recipientId
  keyEpoch : envelope.keyEpoch ≠ 0
  encapsulatedKey : envelope.encapsulatedKey.length = X25519_KEY_LEN
  wrappedDek : envelope.wrappedDek.length = WRAPPED_DEK_LEN

structure IndexWithin (policy : ValidationPolicy) (index : BlindIndex) : Prop where
  label : LabelWithin policy.maxIdentifierBytes index.label
  canonicalizerId : LabelWithin policy.maxIdentifierBytes index.canonicalizerId
  keyEpoch : index.keyEpoch ≠ 0
  schemaVersion : index.schemaVersion ≠ 0
  canonicalizerVersion : index.canonicalizerVersion ≠ 0

/-- Genesis records carry the zero hash, and only they do. -/
structure ManifestShape (record : SealedRecord) : Prop where
  positive : record.manifestRevision ≠ 0
  genesis : record.manifestRevision = 1 ↔ record.previousManifestHash = zeroHash

structure WithinLimits (policy : ValidationPolicy) (record : SealedRecord) : Prop where
  formatVersion : record.formatVersion = FORMAT_VERSION
  context : ContextWithin policy record.context
  manifest : ManifestShape record
  nonce : record.nonce.length = record.suite.nonceLen
  ciphertextMin : TAG_LEN ≤ record.ciphertext.length
  ciphertextMax : record.ciphertext.length ≤ policy.maxCiphertextBytes.toNat
  recipientsMin : 0 < record.recipients.length
  recipientsMax : record.recipients.length ≤ policy.maxRecipients.toNat
  envelopes : ∀ envelope ∈ record.recipients, EnvelopeWithin policy envelope
  recipientsSorted : record.recipients.Pairwise fun a b => ScopeLt a.scope b.scope
  indexesMax : record.indexes.length ≤ policy.maxIndexes.toNat
  indexes : ∀ index ∈ record.indexes, IndexWithin policy index
  indexesSorted : record.indexes.Pairwise fun a b => ScopeLt a.scope b.scope
  signature : record.signature.length = 64

@[simp] theorem validateLabel_eq_ok {value : String} {max : Usize} {u : Unit} :
    validateLabel value max = .ok u ↔ LabelWithin max value := by
  simp only [validateLabel, rejectIf_eq_ok, LabelWithin]
  omega

theorem validateContext_eq_ok {context : RecordContext} {policy : ValidationPolicy} {u : Unit} :
    validateContext context policy = .ok u ↔ ContextWithin policy context := by
  simp only [validateContext, bind_eq_ok, validateLabel_eq_ok, rejectIf_eq_ok, exists_const, not_or]
  constructor
  · rintro ⟨tenant, objectId, field, epoch, version, schemaVersion⟩
    exact ⟨tenant, objectId, field, epoch, version, schemaVersion⟩
  · intro within
    exact ⟨within.tenant, within.objectId, within.field, within.epoch, within.version,
      within.schemaVersion⟩

/-- Not at or above the previous scope means strictly below the current one. -/
private theorem not_previous_ge {previous : Option (String × UInt64)} {current : String × UInt64} :
    (¬ ∃ scope ∈ previous, (scopeOrder scope current).isGE) ↔
      ∀ scope ∈ previous, ScopeLt scope current := by
  simp only [not_exists, not_and, ScopeLt]
  refine forall_congr' fun scope => imp_congr_right fun _ => ?_
  cases scopeOrder scope current <;> decide

theorem validateEnvelope_eq_ok {policy : ValidationPolicy} {previous : Option (String × UInt64)}
    {envelope : RecipientEnvelope} {u : Unit} :
    validateEnvelope policy previous envelope = .ok u ↔
      EnvelopeWithin policy envelope ∧ ∀ scope ∈ previous, ScopeLt scope envelope.scope := by
  simp only [validateEnvelope, bind_eq_ok, validateLabel_eq_ok, rejectIf_eq_ok, exists_const,
    not_previous_ge, not_not]
  constructor
  · rintro ⟨recipientId, keyEpoch, above, encapsulatedKey, wrappedDek⟩
    exact ⟨⟨recipientId, keyEpoch, encapsulatedKey, wrappedDek⟩, above⟩
  · rintro ⟨within, above⟩
    exact ⟨within.recipientId, within.keyEpoch, above, within.encapsulatedKey, within.wrappedDek⟩

theorem validateIndex_eq_ok {policy : ValidationPolicy} {previous : Option (String × UInt64)}
    {index : BlindIndex} {u : Unit} :
    validateIndex policy previous index = .ok u ↔
      IndexWithin policy index ∧ ∀ scope ∈ previous, ScopeLt scope index.scope := by
  simp only [validateIndex, bind_eq_ok, validateLabel_eq_ok, rejectIf_eq_ok, exists_const,
    not_previous_ge, not_or]
  constructor
  · rintro ⟨label, canonicalizerId, ⟨keyEpoch, schemaVersion, canonicalizerVersion⟩, above⟩
    exact ⟨⟨label, canonicalizerId, keyEpoch, schemaVersion, canonicalizerVersion⟩, above⟩
  · rintro ⟨within, above⟩
    exact ⟨within.label, within.canonicalizerId,
      ⟨within.keyEpoch, within.schemaVersion, within.canonicalizerVersion⟩, above⟩

/-- The loop invariant: everything still to come lies above the previous scope. -/
theorem validateInOrder_eq_ok {α : Type} (scope : α → String × UInt64)
    (check : Option (String × UInt64) → α → Except WireError Unit) {good : α → Prop}
    (spec : ∀ previous item, check previous item = .ok () ↔
      good item ∧ ∀ low ∈ previous, ScopeLt low (scope item)) (items : List α) :
    ∀ (previous : Option (String × UInt64)) {u : Unit},
      validateInOrder scope check previous items = .ok u ↔
        (∀ item ∈ items, good item) ∧
        (∀ low ∈ previous, ∀ item ∈ items, ScopeLt low (scope item)) ∧
        items.Pairwise fun a b => ScopeLt (scope a) (scope b) := by
  induction items with
  | nil => simp [validateInOrder]
  | cons item rest ih =>
      intro previous u
      simp only [validateInOrder, bind_eq_ok, exists_const, spec, ih, List.forall_mem_cons,
        List.pairwise_cons, Option.mem_some_iff, forall_eq']
      constructor
      · rintro ⟨⟨good, above⟩, goodRest, aboveItem, sorted⟩
        exact ⟨⟨good, goodRest⟩,
          fun low member => ⟨above low member,
            fun other inside => (above low member).trans (aboveItem other inside)⟩,
          aboveItem, sorted⟩
      · rintro ⟨⟨good, goodRest⟩, above, aboveItem, sorted⟩
        exact ⟨⟨good, fun low member => (above low member).1⟩, goodRest, aboveItem, sorted⟩

/-- With nothing before them, the items are good and ascending. -/
theorem validateInOrder_none_eq_ok {α : Type} (scope : α → String × UInt64)
    (check : Option (String × UInt64) → α → Except WireError Unit) {good : α → Prop}
    (spec : ∀ previous item, check previous item = .ok () ↔
      good item ∧ ∀ low ∈ previous, ScopeLt low (scope item)) {items : List α} {u : Unit} :
    validateInOrder scope check none items = .ok u ↔
      (∀ item ∈ items, good item) ∧ items.Pairwise fun a b => ScopeLt (scope a) (scope b) := by
  rw [validateInOrder_eq_ok scope check spec]
  simp only [Option.mem_def, reduceCtorEq, false_implies, implies_true, true_and]

theorem envelopes_eq_ok {policy : ValidationPolicy} {recipients : List RecipientEnvelope} {u : Unit} :
    validateInOrder RecipientEnvelope.scope (validateEnvelope policy) none recipients = .ok u ↔
      (∀ envelope ∈ recipients, EnvelopeWithin policy envelope) ∧
        recipients.Pairwise fun a b => ScopeLt a.scope b.scope :=
  validateInOrder_none_eq_ok RecipientEnvelope.scope (validateEnvelope policy) fun _ _ => validateEnvelope_eq_ok

theorem indexes_eq_ok {policy : ValidationPolicy} {indexes : List BlindIndex} {u : Unit} :
    validateInOrder BlindIndex.scope (validateIndex policy) none indexes = .ok u ↔
      (∀ index ∈ indexes, IndexWithin policy index) ∧
        indexes.Pairwise fun a b => ScopeLt a.scope b.scope :=
  validateInOrder_none_eq_ok BlindIndex.scope (validateIndex policy) fun _ _ => validateIndex_eq_ok

private theorem revision_cases {revision : UInt64} {genesis : Prop} :
    (¬ revision = 0 ∧ ¬ (revision = 1 ∧ ¬ genesis) ∧ ¬ (revision > 1 ∧ genesis)) ↔
      revision ≠ 0 ∧ (revision = 1 ↔ genesis) := by
  have trichotomy : revision = 0 ∨ revision = 1 ∨ revision > 1 := by
    simp only [gt_iff_lt, UInt64.lt_iff_toNat_lt, ← UInt64.toNat_inj]
    simp only [UInt64.toNat_zero, UInt64.toNat_one]
    omega
  have apart : revision > 1 → revision ≠ 1 := by
    rintro above rfl
    exact absurd above (by decide)
  by_cases isGenesis : genesis <;> simp only [isGenesis] <;> tauto

theorem validateLimits_eq_ok {record : SealedRecord} {policy : ValidationPolicy} {u : Unit} :
    record.validateLimits policy = .ok u ↔ WithinLimits policy record := by
  simp only [SealedRecord.validateLimits, bind_eq_ok, rejectIf_eq_ok, exists_const,
    validateContext_eq_ok, envelopes_eq_ok, indexes_eq_ok, not_or, ne_eq, not_not, gt_iff_lt,
    Nat.not_lt]
  constructor
  · rintro ⟨formatVersion, context, manifest, nonce, ⟨ciphertextMin, ciphertextMax⟩,
      ⟨recipientsMin, recipientsMax⟩, ⟨envelopes, recipientsSorted⟩, indexesMax,
      ⟨indexes, indexesSorted⟩, signature⟩
    obtain ⟨positive, genesis⟩ := revision_cases.mp manifest
    exact
      { formatVersion, context, manifest := ⟨positive, genesis⟩, nonce, ciphertextMin, ciphertextMax
        recipientsMin := Nat.pos_of_ne_zero recipientsMin
        recipientsMax, envelopes, recipientsSorted, indexesMax, indexes, indexesSorted, signature }
  · intro within
    exact ⟨within.formatVersion, within.context,
      revision_cases.mpr ⟨within.manifest.positive, within.manifest.genesis⟩, within.nonce,
      ⟨within.ciphertextMin, within.ciphertextMax⟩,
      ⟨Nat.pos_iff_ne_zero.mp within.recipientsMin, within.recipientsMax⟩,
      ⟨within.envelopes, within.recipientsSorted⟩, within.indexesMax,
      ⟨within.indexes, within.indexesSorted⟩, within.signature⟩

/-- What the validator can answer: it re-encodes nothing. -/
def ValidationError (e : WireError) : Prop := e ≠ .nonCanonicalEncoding

private theorem validateLabel_raises (value : String) (max : Usize) :
    Raises ValidationError (validateLabel value max) :=
  .rejectIf nofun

private theorem validateContext_raises (context : RecordContext) (policy : ValidationPolicy) :
    Raises ValidationError (validateContext context policy) :=
  (validateLabel_raises _ _).bind fun _ _ => (validateLabel_raises _ _).bind fun _ _ =>
    (validateLabel_raises _ _).bind fun _ _ => .rejectIf nofun

private theorem validateEnvelope_raises (policy : ValidationPolicy)
    (previous : Option (String × UInt64)) (envelope : RecipientEnvelope) :
    Raises ValidationError (validateEnvelope policy previous envelope) :=
  (validateLabel_raises _ _).bind fun _ _ => (Raises.rejectIf nofun).bind fun _ _ =>
    (Raises.rejectIf nofun).bind fun _ _ =>
    (Raises.rejectIf nofun).bind fun _ _ => .rejectIf nofun

private theorem validateIndex_raises (policy : ValidationPolicy)
    (previous : Option (String × UInt64)) (index : BlindIndex) :
    Raises ValidationError (validateIndex policy previous index) :=
  (validateLabel_raises _ _).bind fun _ _ => (validateLabel_raises _ _).bind fun _ _ =>
    (Raises.rejectIf nofun).bind fun _ _ => .rejectIf nofun

private theorem validateInOrder_raises {α : Type} {scope : α → String × UInt64}
    {check : Option (String × UInt64) → α → Except WireError Unit}
    (raises : ∀ previous item, Raises ValidationError (check previous item)) (items : List α) :
    ∀ previous, Raises ValidationError (validateInOrder scope check previous items) := by
  induction items with
  | nil => exact fun _ => .ok ()
  | cons item rest ih => exact fun previous => (raises previous item).bind fun _ _ => ih _

theorem validateLimits_raises (record : SealedRecord) (policy : ValidationPolicy) :
    Raises ValidationError (record.validateLimits policy) :=
  (Raises.rejectIf nofun).bind fun _ _ =>
    (validateContext_raises _ _).bind fun _ _ =>
    (Raises.rejectIf nofun).bind fun _ _ =>
    (Raises.rejectIf nofun).bind fun _ _ =>
    (Raises.rejectIf nofun).bind fun _ _ =>
    (Raises.rejectIf nofun).bind fun _ _ =>
    (validateInOrder_raises (validateEnvelope_raises policy) _ _).bind fun _ _ =>
    (Raises.rejectIf nofun).bind fun _ _ =>
    (validateInOrder_raises (validateIndex_raises policy) _ _).bind fun _ _ =>
    .rejectIf nofun

section Validation

variable [Primitives]

/-- The self-declared signature verifies over the signed bytes. -/
def SignatureVerifies (record : SealedRecord) : Prop :=
  ∃ signature, Bytes.asArray 64 record.signature = some signature ∧
    Primitives.verifyStrict record.signerPublicKey record.signingBytes signature = .ok ()

theorem validateStructure_eq_ok {record : SealedRecord} {policy : ValidationPolicy} {u : Unit} :
    record.validateStructure policy = .ok u ↔
      WithinLimits policy record ∧ SignatureVerifies record := by
  simp only [SealedRecord.validateStructure, bind_eq_ok, exists_const, validateLimits_eq_ok,
    okOr_eq_ok, mapError_eq_ok, SignatureVerifies]

theorem validateStructure_raises (record : SealedRecord) (policy : ValidationPolicy) :
    Raises ValidationError (record.validateStructure policy) :=
  (validateLimits_raises record policy).bind fun _ _ =>
    (Raises.okOr nofun).bind fun _ _ => .mapError fun _ _ => nofun

theorem validate_eq_ok {record : SealedRecord} {policy : ValidationPolicy} {u : Unit} :
    record.validate policy = .ok u ↔
      WithinLimits policy record ∧ SignatureVerifies record ∧
        record.signerPublicKey ∈ policy.allowedSigners := by
  simp only [SealedRecord.validate, bind_eq_ok, exists_const, validateStructure_eq_ok,
    rejectIf_eq_ok, not_not, and_assoc]
  constructor
  · rintro ⟨limits, signed, -, pinned⟩
    exact ⟨limits, signed, pinned⟩
  · rintro ⟨limits, signed, pinned⟩
    exact ⟨limits, signed, List.ne_nil_of_mem pinned, pinned⟩

end Validation

/-- The least a record can hold: one reader, no index, and the tag of an empty
    plaintext. -/
def minimalRecord (context : RecordContext) (manifestRevision : UInt64)
    (previousManifestHash signerPublicKey : Vector UInt8 32) (signature : Vector UInt8 64) :
    SealedRecord where
  formatVersion := FORMAT_VERSION
  suite := .chaCha20Poly1305
  context
  manifestRevision
  previousManifestHash
  keyCommitment := Vector.replicate 32 0
  nonce := List.replicate 12 0
  ciphertext := List.replicate 16 0
  recipients :=
    [{ recipientId := "r", keyEpoch := 1, recipientKeyId := Vector.replicate 32 0
       encapsulatedKey := List.replicate 32 0, wrappedDek := List.replicate 48 0 }]
  indexes := []
  signerPublicKey
  signature := signature.toList

theorem minimalRecord_within {policy : ValidationPolicy} {context : RecordContext}
    {revision : UInt64} {previous signer : Vector UInt8 32} {signature : Vector UInt8 64}
    (contextWithin : ContextWithin policy context)
    (shape : revision ≠ 0 ∧ (revision = 1 ↔ previous = zeroHash))
    (ciphertext : 16 ≤ policy.maxCiphertextBytes.toNat) (readers : 1 ≤ policy.maxRecipients.toNat)
    (identifier : 1 ≤ policy.maxIdentifierBytes.toNat) :
    WithinLimits policy (minimalRecord context revision previous signer signature) where
  formatVersion := rfl
  context := contextWithin
  manifest := ⟨shape.1, shape.2⟩
  nonce := rfl
  ciphertextMin := Nat.le_refl 16
  ciphertextMax := ciphertext
  recipientsMin := Nat.one_pos
  recipientsMax := readers
  envelopes := List.forall_mem_singleton.mpr
    ⟨⟨(by decide : 0 < (asBytes "r").length), identifier⟩, by decide, rfl, rfl⟩
  recipientsSorted := List.pairwise_singleton _ _
  indexesMax := Nat.zero_le _
  indexes := List.forall_mem_nil _
  indexesSorted := List.Pairwise.nil
  signature := signature.length_toList

/-- The Ed25519 public key of the seed whose bytes are all 7. -/
def authorKey : Vector UInt8 32 :=
  #v[234, 74, 108, 99, 226, 156, 82, 10, 190, 245, 80, 123, 19, 46, 197, 249, 149, 71, 118, 174,
    190, 190, 123, 146, 66, 30, 234, 105, 20, 70, 210, 44]

def authorPolicy : ValidationPolicy := { ValidationPolicy.default with allowedSigners := [authorKey] }

def sampleContext : RecordContext where
  tenant := "t"
  objectId := "o"
  field := "f"
  epoch := 1
  version := 1
  schemaVersion := 1

theorem sampleContext_within : ContextWithin authorPolicy sampleContext where
  tenant := ⟨by decide, by decide⟩
  objectId := ⟨by decide, by decide⟩
  field := ⟨by decide, by decide⟩
  epoch := by decide
  version := by decide
  schemaVersion := by decide

/-- The author's record of the sample context. -/
def sampleRecord (revision : UInt64) (previous : Vector UInt8 32) (signature : Vector UInt8 64) :
    SealedRecord :=
  minimalRecord sampleContext revision previous authorKey signature

theorem sampleRecord_validates {revision : UInt64} {previous : Vector UInt8 32}
    {signature : Vector UInt8 64} {digests : List (Bytes × Vector UInt8 32)}
    {signatures : List (Bytes × Vector UInt8 64)}
    (shape : revision ≠ 0 ∧ (revision = 1 ↔ previous = zeroHash))
    (signed : ((sampleRecord revision previous signature).signingBytes, signature) ∈ signatures) :
    @SealedRecord.validate (.recorded authorKey digests signatures)
      (sampleRecord revision previous signature) authorPolicy = .ok () := by
  refine (@validate_eq_ok (.recorded authorKey digests signatures) _ _ _).mpr
    ⟨minimalRecord_within sampleContext_within shape (by decide) (by decide) (by decide),
      ⟨signature, Bytes.asArray_eq_some.mpr rfl, if_pos ⟨rfl, signed⟩⟩, ?_⟩
  exact List.mem_singleton_self _

end Blindplane.Wire
