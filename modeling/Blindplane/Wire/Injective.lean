import Blindplane.Wire.Layout
import Blindplane.Wire.Limits

/-! # Signed bytes determine the record

Every piece of the signed bytes says where it ends, so the whole is read off from the
front: no record's signed bytes begin another's, and the signature may follow them
without a length of its own. Lengths are taken below `2 ^ 64`, the width of a prefix.
-/

namespace Blindplane.Wire

open Lib Lib.Utf8 Lib.Bytes Crypto

theorem string_delimited : Delimited (fun value : String => framed 8 (asBytes value))
    (fun value => (asBytes value).length < 2 ^ 64) := by
  intro a b s t ha hb same
  obtain ⟨bytes, rest⟩ := framed_delimited 8 ha hb same
  exact ⟨asBytes_inj.mp bytes, rest⟩

structure RecordContext.Sized (context : RecordContext) : Prop where
  tenant : (asBytes context.tenant).length < 2 ^ 64
  objectId : (asBytes context.objectId).length < 2 ^ 64
  field : (asBytes context.field).length < 2 ^ 64

structure RecipientEnvelope.Sized (envelope : RecipientEnvelope) : Prop where
  recipientId : (asBytes envelope.recipientId).length < 2 ^ 64
  encapsulatedKey : envelope.encapsulatedKey.length < 2 ^ 64
  wrappedDek : envelope.wrappedDek.length < 2 ^ 64

structure BlindIndex.Sized (index : BlindIndex) : Prop where
  label : (asBytes index.label).length < 2 ^ 64
  canonicalizerId : (asBytes index.canonicalizerId).length < 2 ^ 64

/-- Every field of the record is shorter than `2 ^ 64`. -/
structure SealedRecord.Sized (record : SealedRecord) : Prop where
  context : record.context.Sized
  nonce : record.nonce.length < 2 ^ 64
  ciphertext : record.ciphertext.length < 2 ^ 64
  recipients : record.recipients.length < 2 ^ 64 ∧ ∀ envelope ∈ record.recipients, envelope.Sized
  indexes : record.indexes.length < 2 ^ 64 ∧ ∀ index ∈ record.indexes, index.Sized

/-- Machine-sized limits keep every field of a validated record below `2 ^ 64`. -/
theorem WithinLimits.sized {policy : ValidationPolicy} {record : SealedRecord}
    (within : WithinLimits policy record) : record.Sized := by
  have label : ∀ {value : String}, LabelWithin policy.maxIdentifierBytes value →
      (asBytes value).length < 2 ^ 64 := fun bounded =>
    bounded.2.trans_lt policy.maxIdentifierBytes.toNat_lt
  have envelope : ∀ item ∈ record.recipients, item.Sized := fun item member =>
    have bounded := within.envelopes item member
    { recipientId := label bounded.recipientId
      encapsulatedKey := by rw [bounded.encapsulatedKey]; decide
      wrappedDek := by rw [bounded.wrappedDek]; decide }
  exact
    { context := ⟨label within.context.tenant, label within.context.objectId,
        label within.context.field⟩
      nonce := by rw [within.nonce]; exact record.suite.nonceLen_le.trans_lt (by decide)
      ciphertext := within.ciphertextMax.trans_lt policy.maxCiphertextBytes.toNat_lt
      recipients := ⟨within.recipientsMax.trans_lt policy.maxRecipients.toNat_lt, envelope⟩
      indexes := ⟨within.indexesMax.trans_lt policy.maxIndexes.toNat_lt, fun item member =>
        ⟨label (within.indexes item member).label,
          label (within.indexes item member).canonicalizerId⟩⟩ }

theorem context_delimited : Delimited RecordContext.canonicalBytes RecordContext.Sized := by
  intro a b s t ha hb same
  simp only [RecordContext.canonicalBytes_eq, List.append_assoc] at same
  have domain := List.append_cancel_left same
  obtain ⟨tenant, rest⟩ := string_delimited ha.tenant hb.tenant domain
  obtain ⟨objectId, rest⟩ := string_delimited ha.objectId hb.objectId rest
  obtain ⟨field, rest⟩ := string_delimited ha.field hb.field rest
  obtain ⟨epoch, rest⟩ := u64_delimited trivial trivial rest
  obtain ⟨version, rest⟩ := u64_delimited trivial trivial rest
  obtain ⟨schemaVersion, rest⟩ := u32_delimited trivial trivial rest
  cases a
  cases b
  simp_all only [and_self]

theorem envelope_delimited : Delimited RecipientEnvelope.layout RecipientEnvelope.Sized := by
  intro a b s t ha hb same
  simp only [RecipientEnvelope.layout, List.append_assoc] at same
  obtain ⟨recipientId, rest⟩ := string_delimited ha.recipientId hb.recipientId same
  obtain ⟨keyEpoch, rest⟩ := u64_delimited trivial trivial rest
  obtain ⟨recipientKeyId, rest⟩ := array_delimited 32 trivial trivial rest
  obtain ⟨encapsulatedKey, rest⟩ := framed_delimited 8 ha.encapsulatedKey hb.encapsulatedKey rest
  obtain ⟨wrappedDek, rest⟩ := framed_delimited 8 ha.wrappedDek hb.wrappedDek rest
  cases a
  cases b
  simp_all only [and_self]

theorem index_delimited : Delimited BlindIndex.layout BlindIndex.Sized := by
  intro a b s t ha hb same
  simp only [BlindIndex.layout, List.append_assoc] at same
  obtain ⟨label, rest⟩ := string_delimited ha.label hb.label same
  obtain ⟨schemaVersion, rest⟩ := u32_delimited trivial trivial rest
  obtain ⟨canonicalizerId, rest⟩ := string_delimited ha.canonicalizerId hb.canonicalizerId rest
  obtain ⟨canonicalizerVersion, rest⟩ := u16_delimited trivial trivial rest
  obtain ⟨keyEpoch, rest⟩ := u64_delimited trivial trivial rest
  obtain ⟨token, rest⟩ := array_delimited INDEX_TOKEN_LEN trivial trivial rest
  cases a
  cases b
  simp_all only [and_self]

theorem suite_delimited : Delimited (fun suite : Suite => [suite.code]) (fun _ => True) :=
  .fixedWidth (fun _ => rfl) (fun _ _ _ _ same => Suite.code_inj.mp (List.head_eq_of_cons_eq same))

namespace SealedRecord

/-- Equal on every field the signature covers. -/
def AgreesUnsigned (a b : SealedRecord) : Prop := { a with signature := b.signature } = b

/-- The signed bytes end by themselves. The nested context needs no bound of its own:
    its prefix has a fixed width, and its fields delimit it. -/
theorem signingBytes_delimited {a b : SealedRecord} {s t : Bytes} (ha : a.Sized) (hb : b.Sized)
    (same : a.signingBytes ++ s = b.signingBytes ++ t) : AgreesUnsigned a b ∧ s = t := by
  simp only [signingBytes_eq, framed, List.append_assoc] at same
  have rest := List.append_cancel_left (List.append_cancel_left same)
  obtain ⟨formatVersion, rest⟩ := u16_delimited trivial trivial rest
  obtain ⟨suite, rest⟩ := suite_delimited trivial trivial rest
  obtain ⟨-, rest⟩ := List.append_inj rest (by simp only [be_length])
  obtain ⟨context, rest⟩ := context_delimited ha.context hb.context rest
  obtain ⟨manifestRevision, rest⟩ := u64_delimited trivial trivial rest
  obtain ⟨previousManifestHash, rest⟩ := array_delimited 32 trivial trivial rest
  obtain ⟨keyCommitment, rest⟩ := array_delimited 32 trivial trivial rest
  simp only [← List.append_assoc (be 8 _) _ (_ ++ _)] at rest
  obtain ⟨nonce, rest⟩ := framed_delimited 8 ha.nonce hb.nonce rest
  obtain ⟨ciphertext, rest⟩ := framed_delimited 8 ha.ciphertext hb.ciphertext rest
  obtain ⟨recipients, rest⟩ :=
    counted_delimited 8 envelope_delimited ha.recipients hb.recipients rest
  obtain ⟨indexes, rest⟩ := counted_delimited 8 index_delimited ha.indexes hb.indexes rest
  obtain ⟨signerPublicKey, rest⟩ := array_delimited 32 trivial trivial rest
  refine ⟨?_, rest⟩
  cases a
  cases b
  simp_all only [AgreesUnsigned]

/-- Signed bytes that begin another record's, and equal manifest-hash preimages, come
    from equal contents. -/
theorem signed_contents_determined {a b : SealedRecord} (ha : a.Sized) (hb : b.Sized) :
    (a.signingBytes <+: b.signingBytes → AgreesUnsigned a b) ∧
      (a.manifestPreimage = b.manifestPreimage → a = b) := by
  constructor
  · rintro ⟨rest, same⟩
    exact (signingBytes_delimited (t := []) ha hb (by rw [same, List.append_nil])).1
  · intro same
    simp only [manifestPreimage, List.append_assoc] at same
    obtain ⟨agrees, signature⟩ := signingBytes_delimited ha hb (List.append_cancel_left same)
    rw [AgreesUnsigned, ← signature] at agrees
    exact agrees

/-- One content under two signatures: the signed bytes agree and the preimages do not. -/
theorem resigned_contents_determined :
    let a := sampleRecord 1 zeroHash (.replicate 64 0)
    let b := sampleRecord 1 zeroHash (.replicate 64 1)
    AgreesUnsigned a b ∧ a.manifestPreimage ≠ b.manifestPreimage := by
  intro a b
  have sized : ∀ signature, (sampleRecord 1 zeroHash signature).Sized :=
    fun _ => (minimalRecord_within sampleContext_within (by decide) (by decide) (by decide)
      (by decide)).sized
  have determined := signed_contents_determined (sized (.replicate 64 0)) (sized (.replicate 64 1))
  exact ⟨determined.1 (List.prefix_refl _), fun same => absurd (determined.2 same) (by decide)⟩

end SealedRecord

end Blindplane.Wire
