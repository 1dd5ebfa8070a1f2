import Blindplane.Wire.Record

/-! # The layout of the signed bytes

The encoders append to a buffer, as the source does. Here they are written out as the
concatenation of their fields, the form the decoder and the injectivity results use.
-/

namespace Blindplane.Wire

open Lib Lib.Utf8 Crypto

def RecipientEnvelope.layout (envelope : RecipientEnvelope) : Bytes :=
  Bytes.framed 8 (asBytes envelope.recipientId) ++ (Bytes.u64 envelope.keyEpoch ++
    (envelope.recipientKeyId.toList ++ (Bytes.framed 8 envelope.encapsulatedKey ++
      Bytes.framed 8 envelope.wrappedDek)))

def BlindIndex.layout (index : BlindIndex) : Bytes :=
  Bytes.framed 8 (asBytes index.label) ++ (Bytes.u32 index.schemaVersion ++
    (Bytes.framed 8 (asBytes index.canonicalizerId) ++ (Bytes.u16 index.canonicalizerVersion ++
      (Bytes.u64 index.keyEpoch ++ index.token.toList))))

theorem pushEnvelope_eq (out : Bytes) (envelope : RecipientEnvelope) :
    pushEnvelope out envelope = out ++ envelope.layout := by
  simp only [pushEnvelope, pushBytes_eq, RecipientEnvelope.layout, List.append_assoc]

theorem pushIndex_eq (out : Bytes) (index : BlindIndex) :
    pushIndex out index = out ++ index.layout := by
  simp only [pushIndex, pushBytes_eq, BlindIndex.layout, List.append_assoc]

private theorem foldl_push {α : Type} {push : Bytes → α → Bytes} {layout : α → Bytes}
    (push_eq : ∀ out item, push out item = out ++ layout item) (items : List α) (out : Bytes) :
    items.foldl push out = out ++ items.flatMap layout := by
  induction items generalizing out with
  | nil => simp
  | cons item rest ih => simp only [List.foldl_cons, push_eq, ih, List.flatMap_cons, List.append_assoc]

theorem SealedRecord.signingBytes_eq (record : SealedRecord) :
    record.signingBytes = Bytes.framed 8 recordDomain ++ (Bytes.u16 record.formatVersion ++
      ([record.suite.code] ++ (Bytes.framed 8 record.context.canonicalBytes ++
      (Bytes.u64 record.manifestRevision ++ (record.previousManifestHash.toList ++
      (record.keyCommitment.toList ++ (Bytes.framed 8 record.nonce ++
      (Bytes.framed 8 record.ciphertext ++ (Bytes.be 8 record.recipients.length ++
      (record.recipients.flatMap RecipientEnvelope.layout ++ (Bytes.be 8 record.indexes.length ++
      (record.indexes.flatMap BlindIndex.layout ++ record.signerPublicKey.toList)))))))))))) := by
  simp only [SealedRecord.signingBytes, pushBytes_eq, pushLen, foldl_push pushEnvelope_eq,
    foldl_push pushIndex_eq, List.nil_append, List.append_assoc]

theorem SealedRecord.encode_eq (record : SealedRecord) :
    record.encode = record.signingBytes ++ Bytes.framed 8 record.signature :=
  pushBytes_eq _ _

end Blindplane.Wire
