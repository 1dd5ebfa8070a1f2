import Blindplane.Wire.Canonical

/-! # What `decode` accepts, and when it agrees with the validator

The parser and the validator bound the same fields by different limits. Everything
the parser asks beyond the validator is that no length prefix exceeds one byte limit,
taken from the ciphertext limit alone.
-/

namespace Blindplane.Wire

open Lib Lib.Utf8 Lib.Checked Crypto

namespace RecordContext

def identifiers (context : RecordContext) : List String :=
  [context.tenant, context.objectId, context.field]

end RecordContext

namespace SealedRecord

/-- The identifier strings of a record. -/
def identifiers (record : SealedRecord) : List String :=
  record.context.identifiers ++ record.recipients.map RecipientEnvelope.recipientId ++
    record.indexes.flatMap fun index => [index.label, index.canonicalizerId]

/-- The byte strings the encoding writes behind a length prefix. -/
def lengthPrefixed (record : SealedRecord) : List Bytes :=
  [recordDomain, record.context.canonicalBytes, contextDomain, record.nonce, record.ciphertext,
    record.signature] ++ record.identifiers.map asBytes ++
    record.recipients.flatMap fun envelope => [envelope.encapsulatedKey, envelope.wrappedDek]

end SealedRecord

theorem WithinLimits.identifiers {policy : ValidationPolicy} {record : SealedRecord}
    (within : WithinLimits policy record) :
    ∀ value ∈ record.identifiers, (asBytes value).length ≤ policy.maxIdentifierBytes.toNat := by
  simp only [SealedRecord.identifiers, RecordContext.identifiers, List.mem_append, List.mem_cons,
    List.mem_map, List.mem_flatMap, List.not_mem_nil, or_false]
  rintro value (((rfl | rfl | rfl) | ⟨envelope, member, rfl⟩) | ⟨index, member, rfl | rfl⟩)
  · exact within.context.tenant.2
  · exact within.context.objectId.2
  · exact within.context.field.2
  · exact (within.envelopes envelope member).recipientId.2
  · exact (within.indexes index member).label.2
  · exact (within.indexes index member).canonicalizerId.2

/-- The parser's bounds in terms of the fields they are checked on. -/
theorem recordFits_iff {policy : ValidationPolicy} {record : SealedRecord}
    (within : WithinLimits policy record) :
    RecordFits policy record ↔
      (∀ field ∈ record.lengthPrefixed, field.length ≤ Cursor.lengthLimit policy) ∧
        ∀ value ∈ record.identifiers, (asBytes value).length ≤ policy.maxIdentifierBytes.toNat := by
  constructor
  · intro fits
    refine ⟨?_, within.identifiers⟩
    simp only [SealedRecord.lengthPrefixed, SealedRecord.identifiers, RecordContext.identifiers,
      List.map_append, List.map_map, List.map_flatMap, List.map_cons, List.map_nil, List.mem_append,
      List.mem_cons, List.mem_map, List.mem_flatMap, List.not_mem_nil, or_false, Function.comp_apply]
    rintro field (((rfl | rfl | rfl | rfl | rfl | rfl) | (((rfl | rfl | rfl) |
      ⟨envelope, member, rfl⟩) | ⟨index, member, rfl | rfl⟩)) | ⟨envelope, member, rfl | rfl⟩)
    · exact Parses.short_fits (by decide)
    · exact fits.contextBytes
    · exact Parses.short_fits (by decide)
    · exact fits.nonce
    · exact fits.ciphertext
    · exact fits.signature
    · exact fits.context.tenant.prefixed
    · exact fits.context.objectId.prefixed
    · exact fits.context.field.prefixed
    · exact (fits.recipients envelope member).recipientId.prefixed
    · exact (fits.indexes index member).label.prefixed
    · exact (fits.indexes index member).canonicalizerId.prefixed
    · exact (fits.recipients envelope member).encapsulatedKey
    · exact (fits.recipients envelope member).wrappedDek
  · rintro ⟨prefixed, identifiers⟩
    have fits : ∀ value ∈ record.identifiers, IdentifierFits policy value := fun value member =>
      ⟨prefixed _ (by simp only [SealedRecord.lengthPrefixed, List.mem_append, List.mem_map]
                      exact .inl (.inr ⟨value, member, rfl⟩)), identifiers value member⟩
    have envelope_fits : ∀ envelope ∈ record.recipients, EnvelopeFits policy envelope := by
      intro envelope member
      refine ⟨fits _ ?_, prefixed _ ?_, prefixed _ ?_⟩
      · simp only [SealedRecord.identifiers, List.mem_append, List.mem_map]
        exact .inl (.inr ⟨envelope, member, rfl⟩)
      all_goals
        simp only [SealedRecord.lengthPrefixed, List.mem_append, List.mem_flatMap]
        exact .inr ⟨envelope, member, by simp⟩
    have index_fits : ∀ index ∈ record.indexes, IndexFits policy index := by
      intro index member
      refine ⟨fits _ ?_, fits _ ?_⟩
      all_goals
        simp only [SealedRecord.identifiers, List.mem_append, List.mem_flatMap]
        exact .inr ⟨index, member, by simp⟩
    exact
      { formatVersion := within.formatVersion
        contextBytes := prefixed _ (by simp [SealedRecord.lengthPrefixed])
        context := ⟨fits _ (by simp [SealedRecord.identifiers, RecordContext.identifiers]),
          fits _ (by simp [SealedRecord.identifiers, RecordContext.identifiers]),
          fits _ (by simp [SealedRecord.identifiers, RecordContext.identifiers])⟩
        nonce := prefixed _ (by simp [SealedRecord.lengthPrefixed])
        ciphertext := prefixed _ (by simp [SealedRecord.lengthPrefixed])
        recipientsMax := within.recipientsMax
        recipients := envelope_fits
        indexesMax := within.indexesMax
        indexes := index_fits
        signature := prefixed _ (by simp [SealedRecord.lengthPrefixed]) }

section Decode

variable [Primitives]

/-- What is parsed is the record that was encoded, its vectors with their memory. -/
theorem decode_eq_ok_iff {bytes : Bytes} {policy : ValidationPolicy} {alloc : Allocator} {record : SealedRecord} :
    SealedRecord.decode bytes policy alloc = .ok record ↔
      alloc.Grants record ∧ bytes = record.encode ∧ record.validateStructure policy = .ok () ∧
        RecordFits policy record := by
  simp only [SealedRecord.decode, bind_eq_ok, exists_const, rejectIf_eq_ok, mapError_eq_ok,
    pure_eq_ok, not_not, readAll_eq_ok (Parses.recordFields policy alloc)]
  constructor
  · rintro ⟨parsed, ⟨⟨fits, grants⟩, rfl⟩, -, _, valid, rfl⟩
    exact ⟨grants, rfl, valid, fits⟩
  · rintro ⟨grants, rfl, valid, fits⟩
    exact ⟨record, ⟨⟨fits, grants⟩, rfl⟩, rfl, (), valid, rfl⟩

theorem decode_eq_ok {bytes : Bytes} {policy : ValidationPolicy} {record : SealedRecord} :
    SealedRecord.decode bytes policy = .ok record ↔
      bytes = record.encode ∧ record.validateStructure policy = .ok () ∧
        RecordFits policy record :=
  decode_eq_ok_iff.trans (and_iff_right (Allocator.granting_grants record))

/-- A decoding failure is the parser's own or the validator's. -/
theorem decode_raises (bytes : Bytes) (policy : ValidationPolicy) (alloc : Allocator) :
    Raises (ParseError (alloc.Refuses policy)) (SealedRecord.decode bytes policy alloc) := by
  refine Raises.bind (fun _ => readAll_error (Parses.recordFields policy alloc)) fun record parsed => ?_
  obtain ⟨-, rfl⟩ := (readAll_eq_ok (Parses.recordFields policy alloc)).mp parsed
  refine Raises.bind (fun e failed => ?_) fun _ _ => Raises.bind ?_ fun _ _ => .ok record
  · exact absurd failed (by simp [rejectIf])
  · exact .mapError fun e failed => .error (validateStructure_raises record policy e failed)

/-- With its memory granted, the parser does not panic. -/
theorem decode_not_panic (bytes : Bytes) (policy : ValidationPolicy) (site : Panic) :
    SealedRecord.decode bytes policy ≠ .error (.panic site) := by
  intro failed
  cases decode_raises bytes policy .granting _ failed with
  | capacity refused => exact Allocator.granting_not_refuses policy refused

omit [Primitives] in
theorem takeLen_bind {α : Type} {most : Usize} {next next' : Nat → Reader α}
    (same : ∀ count ≤ most.toNat, next count = next' count) :
    (Cursor.takeLen most >>= next) = (Cursor.takeLen most >>= next') := by
  simp only [Cursor.takeLen, bind_assoc, pure_bind]
  refine bind_congr fun len => ?_
  by_cases within : len.toNat ≤ most.toNat
  · rw [same _ within]
  · funext cursor
    simp only [bind, StateT.bind, Process.ensure, if_neg within, Except.bind]

omit [Primitives] in
/-- An allocator that refuses nothing the policy admits is not noticed. -/
theorem recordFields_of_not_refuses {policy : ValidationPolicy} {alloc : Allocator} (grants : ¬ alloc.Refuses policy) :
    recordFields policy alloc = recordFields policy .granting := by
  have envelopes : ∀ count ≤ policy.maxRecipients.toNat, alloc.envelopes count = true :=
    fun count few => of_not_not fun refused => grants (.inl ⟨count, few, refused⟩)
  have indexes : ∀ count ≤ policy.maxIndexes.toNat, alloc.indexes count = true :=
    fun count few => of_not_not fun refused => grants (.inr ⟨count, few, refused⟩)
  refine bind_congr fun domain => bind_congr fun _ => bind_congr fun formatVersion => bind_congr fun _ =>
    bind_congr fun code => bind_congr fun suite => bind_congr fun contextBytes => bind_congr fun context =>
    bind_congr fun manifestRevision => bind_congr fun previousManifestHash => bind_congr fun keyCommitment =>
    bind_congr fun nonce => bind_congr fun ciphertext => takeLen_bind fun recipientCount few => ?_
  rw [envelopes _ few]
  refine bind_congr fun _ => bind_congr fun recipients => takeLen_bind fun indexCount few => ?_
  rw [indexes _ few]
  rfl

theorem decode_of_not_refuses {policy : ValidationPolicy} {alloc : Allocator} (grants : ¬ alloc.Refuses policy) (bytes : Bytes) :
    SealedRecord.decode bytes policy alloc = SealedRecord.decode bytes policy := by
  rw [SealedRecord.decode, SealedRecord.decode, recordFields_of_not_refuses grants]

/-- The parser accepts exactly the image of the encoder, as far as its two vectors have their
    memory: it never fails its re-encoding check, never slices out of bounds, and reads back
    whatever it parses to the end. It panics only for a vector whose memory is refused, and
    an allocator that refuses none within the policy's limits is not noticed. -/
theorem decode_accepts_exactly_encodings (bytes : Bytes) (policy : ValidationPolicy) (alloc : Allocator) :
    (∀ record, SealedRecord.decode bytes policy alloc = .ok record ↔
      alloc.Grants record ∧ bytes = record.encode ∧ record.validateStructure policy = .ok () ∧
        (∀ field ∈ record.lengthPrefixed,
          field.length ≤ max policy.maxCiphertextBytes.toNat 4096) ∧
        ∀ value ∈ record.identifiers, (asBytes value).length ≤ policy.maxIdentifierBytes.toNat) ∧
      (∀ record, readAll (recordFields policy alloc) bytes = .ok record → record.encode = bytes) ∧
      SealedRecord.decode bytes policy alloc ≠ .error (.error .nonCanonicalEncoding) ∧
      SealedRecord.decode bytes policy alloc ≠ .error (.panic .internal) ∧
      (SealedRecord.decode bytes policy alloc = .error (.panic .capacity) → alloc.Refuses policy) ∧
      (¬ alloc.Refuses policy → SealedRecord.decode bytes policy alloc = SealedRecord.decode bytes policy) := by
  refine ⟨fun record => ?_, fun record parsed => ?_, ?_, ?_, ?_, ?_⟩
  · rw [decode_eq_ok_iff]
    refine and_congr_right fun _ => and_congr_right fun _ => and_congr_right fun valid => ?_
    exact recordFits_iff (validateStructure_eq_ok.mp valid).1
  · exact ((readAll_eq_ok (Parses.recordFields policy alloc)).mp parsed).2.symm
  · intro failed
    cases decode_raises bytes policy alloc _ failed with
    | error own => exact own rfl
  · intro failed
    cases decode_raises bytes policy alloc _ failed
  · intro failed
    cases decode_raises bytes policy alloc _ failed with
    | capacity refused => exact refused
  · exact fun grants => decode_of_not_refuses grants bytes

/-- A vector of as many envelopes or indexes as the default policy admits has its memory. -/
example : ¬ Allocator.isize.Refuses .default := by
  have envelopes : ValidationPolicy.default.maxRecipients.toNat = 256 := rfl
  have indexes : ValidationPolicy.default.maxIndexes.toNat = 32 := rfl
  rintro (⟨count, few, refused⟩ | ⟨count, few, refused⟩) <;> simp only [Allocator.isize, decide_eq_true_eq] at refused <;>
    omega

/-- Without a limit on envelopes there is a count for which it has not. -/
example : Allocator.isize.Refuses { ValidationPolicy.default with maxRecipients := UInt64.ofNat (2 ^ 64 - 1) } :=
  .inl ⟨2 ^ 64 - 1, by decide, by decide⟩

/-- The single byte limit of the parser, on the prefixes the validator does not bound by
    it: the nested context, and the identifiers of envelopes and indexes. -/
structure PrefixesFit (policy : ValidationPolicy) (record : SealedRecord) : Prop where
  context : record.context.canonicalBytes.length ≤ max policy.maxCiphertextBytes.toNat 4096
  recipientIds : ∀ envelope ∈ record.recipients,
    (asBytes envelope.recipientId).length ≤ max policy.maxCiphertextBytes.toNat 4096
  labels : ∀ index ∈ record.indexes,
    (asBytes index.label).length ≤ max policy.maxCiphertextBytes.toNat 4096
  canonicalizerIds : ∀ index ∈ record.indexes,
    (asBytes index.canonicalizerId).length ≤ max policy.maxCiphertextBytes.toNat 4096

omit [Primitives] in
theorem WithinLimits.recordFits {policy : ValidationPolicy} {record : SealedRecord}
    (within : WithinLimits policy record) : RecordFits policy record ↔ PrefixesFit policy record := by
  constructor
  · intro fits
    exact
      { context := fits.contextBytes
        recipientIds := fun envelope member => (fits.recipients envelope member).recipientId.prefixed
        labels := fun index member => (fits.indexes index member).label.prefixed
        canonicalizerIds := fun index member => (fits.indexes index member).canonicalizerId.prefixed }
  · intro fits
    -- the context encoding contains its three identifiers
    have nested := fits.context
    rw [RecordContext.canonicalBytes_length] at nested
    have contextIds : ∀ value ∈ record.context.identifiers,
        (asBytes value).length ≤ Cursor.lengthLimit policy := by
      simp only [RecordContext.identifiers, List.mem_cons, List.not_mem_nil, or_false]
      rintro value (rfl | rfl | rfl) <;> simp only [Cursor.lengthLimit] <;> omega
    exact
      { formatVersion := within.formatVersion
        contextBytes := fits.context
        context :=
          { tenant := ⟨contextIds _ (by simp [RecordContext.identifiers]), within.context.tenant.2⟩
            objectId := ⟨contextIds _ (by simp [RecordContext.identifiers]), within.context.objectId.2⟩
            field := ⟨contextIds _ (by simp [RecordContext.identifiers]), within.context.field.2⟩ }
        nonce := Parses.short_fits (by rw [within.nonce]; exact record.suite.nonceLen_le.trans (by decide))
        ciphertext := within.ciphertextMax.trans (le_max_left _ _)
        recipientsMax := within.recipientsMax
        recipients := fun envelope member =>
          { recipientId := ⟨fits.recipientIds envelope member,
              (within.envelopes envelope member).recipientId.2⟩
            encapsulatedKey := Parses.short_fits (by
              rw [(within.envelopes envelope member).encapsulatedKey]; decide)
            wrappedDek := Parses.short_fits (by rw [(within.envelopes envelope member).wrappedDek]; decide) }
        indexesMax := within.indexesMax
        indexes := fun index member =>
          { label := ⟨fits.labels index member, (within.indexes index member).label.2⟩
            canonicalizerId := ⟨fits.canonicalizerIds index member,
              (within.indexes index member).canonicalizerId.2⟩ }
        signature := Parses.short_fits (by rw [within.signature]; decide) }

/-- A record the validator accepts comes back from the wire exactly when no prefix
    exceeds the parser's byte limit. -/
theorem validated_round_trips_iff {policy : ValidationPolicy} {record : SealedRecord}
    (valid : record.validateStructure policy = .ok ()) :
    SealedRecord.decode record.encode policy = .ok record ↔ PrefixesFit policy record := by
  rw [decode_eq_ok, ← (validateStructure_eq_ok.mp valid).1.recordFits]
  exact ⟨fun accepted => accepted.2.2, fun fits => ⟨rfl, valid, fits⟩⟩

end Decode

section LongTenant

/-- Identifiers of up to 4096 bytes beside ciphertexts of at most 64. -/
def longIdentifiers : ValidationPolicy where
  maxCiphertextBytes := 64
  maxRecipients := 8
  maxIndexes := 8
  maxIdentifierBytes := 4096
  allowedSigners := []

def longTenantContext : RecordContext where
  tenant := String.ofList (List.replicate 4096 't')
  objectId := "o"
  field := "f"
  epoch := 1
  version := 1
  schemaVersion := 1

/-- The author's signature of the record below. -/
def longTenantSignature : Vector UInt8 64 :=
  #v[169, 62, 89, 24, 248, 51, 183, 144, 219, 249, 152, 32, 247, 122, 255, 188, 225, 116, 13, 2, 209,
    21, 122, 121, 112, 217, 58, 90, 201, 4, 77, 157, 35, 177, 251, 240, 31, 227, 128, 133, 90, 155,
    239, 164, 49, 134, 94, 88, 167, 22, 253, 241, 107, 190, 217, 195, 157, 96, 42, 104, 70, 174, 52,
    10]

def longTenantRecord : SealedRecord :=
  minimalRecord longTenantContext 1 zeroHash authorKey longTenantSignature

/-- The signature check on this record's bytes; nothing here hashes. -/
@[reducible] def longTenantPrimitives : Primitives :=
  .recorded authorKey [] [(longTenantRecord.signingBytes, longTenantSignature)]

private theorem repeated_length (count : Nat) :
    (asBytes (String.ofList (List.replicate count 't'))).length = count := by
  have one : (String.utf8EncodeChar 't').length = 1 := by decide
  simp only [asBytes_ofList, List.length_flatMap, List.map_replicate, one, List.sum_replicate_nat,
    Nat.mul_one]

private theorem longTenant_length : (asBytes longTenantContext.tenant).length = 4096 :=
  repeated_length 4096

private theorem longTenant_valid :
    @SealedRecord.validateStructure longTenantPrimitives longTenantRecord longIdentifiers = .ok () := by
  have within : ContextWithin longIdentifiers longTenantContext :=
    { tenant := ⟨by rw [longTenant_length]; decide, by rw [longTenant_length]; decide⟩
      objectId := ⟨by decide, by decide⟩
      field := ⟨by decide, by decide⟩
      epoch := by decide
      version := by decide
      schemaVersion := by decide }
  refine (@validateStructure_eq_ok longTenantPrimitives _ _ _).mpr
    ⟨minimalRecord_within within (by decide) (by decide) (by decide) (by decide), ?_⟩
  exact ⟨longTenantSignature, Bytes.asArray_eq_some.mpr rfl, if_pos ⟨rfl, List.mem_singleton_self _⟩⟩

theorem long_tenant_round_trips_iff :
    @SealedRecord.decode longTenantPrimitives longTenantRecord.encode longIdentifiers .granting =
      .ok longTenantRecord ↔ PrefixesFit longIdentifiers longTenantRecord :=
  @validated_round_trips_iff longTenantPrimitives _ _ longTenant_valid

/-- The validator accepts this record and the parser refuses its encoding, under one
    policy. -/
theorem long_tenant_refused_on_the_wire :
    @SealedRecord.validateStructure longTenantPrimitives longTenantRecord longIdentifiers = .ok () ∧
      @SealedRecord.decode longTenantPrimitives longTenantRecord.encode longIdentifiers .granting ≠
        .ok longTenantRecord := by
  refine ⟨longTenant_valid, fun accepted => ?_⟩
  have nested := (@decode_eq_ok longTenantPrimitives _ _ _).mp accepted |>.2.2.contextBytes
  rw [RecordContext.canonicalBytes_length] at nested
  have tenant : (asBytes longTenantRecord.context.tenant).length = 4096 := longTenant_length
  have limit : Cursor.lengthLimit longIdentifiers = 4096 := by decide
  omega

end LongTenant

end Blindplane.Wire
