import Blindplane.Wire.Layout
import Blindplane.Wire.Limits
import Mathlib.Algebra.Order.BigOperators.Group.List

/-! # How long an accepted record can be

Every part of a record whose length varies has a limit in the policy. The limits together
bound the encoding, so that a relay knows before it decodes anything how much one key can
make it hold and send.
-/

namespace Blindplane.Wire

open Lib Lib.Utf8 Lib.Bytes Crypto

namespace ValidationPolicy

/-- The most an identifier takes, with its length. -/
def labelSpace (policy : ValidationPolicy) : Nat := 8 + policy.maxIdentifierBytes.toNat

def envelopeSpace (policy : ValidationPolicy) : Nat :=
  policy.labelSpace + 8 + 32 + (8 + X25519_KEY_LEN) + (8 + WRAPPED_DEK_LEN)

def indexSpace (policy : ValidationPolicy) : Nat :=
  policy.labelSpace + 4 + policy.labelSpace + 2 + 8 + INDEX_TOKEN_LEN

/-- The most a record takes; what never varies is 354 bytes. -/
def recordSpace (policy : ValidationPolicy) : Nat :=
  354 + 3 * policy.maxIdentifierBytes.toNat + policy.maxCiphertextBytes.toNat +
    policy.maxRecipients.toNat * policy.envelopeSpace + policy.maxIndexes.toNat * policy.indexSpace

end ValidationPolicy

variable {policy : ValidationPolicy}

theorem EnvelopeWithin.layout_length {envelope : RecipientEnvelope} (within : EnvelopeWithin policy envelope) :
    envelope.layout.length ≤ policy.envelopeSpace := by
  have label := within.recipientId.2
  simp only [RecipientEnvelope.layout, List.length_append, framed_length, u64_length, Vector.length_toList,
    within.encapsulatedKey, within.wrappedDek, ValidationPolicy.envelopeSpace, ValidationPolicy.labelSpace]
  omega

theorem IndexWithin.layout_length {index : BlindIndex} (within : IndexWithin policy index) :
    index.layout.length ≤ policy.indexSpace := by
  have label := within.label.2
  have canonicalizer := within.canonicalizerId.2
  simp only [BlindIndex.layout, List.length_append, framed_length, u16_length, u32_length, u64_length,
    Vector.length_toList, ValidationPolicy.indexSpace, ValidationPolicy.labelSpace]
  omega

theorem ContextWithin.canonicalBytes_length {context : RecordContext} (within : ContextWithin policy context) :
    context.canonicalBytes.length ≤ 73 + 3 * policy.maxIdentifierBytes.toNat := by
  have tenant := within.tenant.2
  have object := within.objectId.2
  have field := within.field.2
  rw [RecordContext.canonicalBytes_length]
  omega

/-- So many items of so much space. -/
private theorem flatMap_length_le {α : Type} {layout : α → Bytes} {items : List α} {most space : Nat}
    (count : items.length ≤ most) (fits : ∀ item ∈ items, (layout item).length ≤ space) :
    (items.flatMap layout).length ≤ most * space := by
  rw [List.length_flatMap]
  have summed : (items.map fun item => (layout item).length).sum ≤ (items.map _).length * space :=
    List.sum_le_card_nsmul _ space (List.forall_mem_map.mpr fits)
  rw [List.length_map] at summed
  exact summed.trans (Nat.mul_le_mul_right space count)

/-- What keeps the limits fits the space that they leave. -/
theorem WithinLimits.encode_length {record : SealedRecord} (within : WithinLimits policy record) :
    record.encode.length ≤ policy.recordSpace := by
  have context := within.context.canonicalBytes_length
  have nonce := record.suite.nonceLen_le
  have ciphertext := within.ciphertextMax
  have envelopes : (record.recipients.flatMap RecipientEnvelope.layout).length ≤
      policy.maxRecipients.toNat * policy.envelopeSpace :=
    flatMap_length_le within.recipientsMax fun envelope member => (within.envelopes envelope member).layout_length
  have indexes : (record.indexes.flatMap BlindIndex.layout).length ≤ policy.maxIndexes.toNat * policy.indexSpace :=
    flatMap_length_le within.indexesMax fun index member => (within.indexes index member).layout_length
  have domain : recordDomain.length = 30 := by decide
  simp only [SealedRecord.encode_eq, SealedRecord.signingBytes_eq, List.length_append, framed_length, be_length,
    u16_length, u64_length, Vector.length_toList, List.length_singleton, within.nonce, within.signature, domain,
    ValidationPolicy.recordSpace]
  omega

end Blindplane.Wire
