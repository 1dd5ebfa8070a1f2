import Blindplane.Crypto.Encapsulation
import Blindplane.Crypto.Hkdf

/-! # HPKE as RFC 9180 has it

The document's own functions, over the MAC of RFC 2104 and the blocks of RFC 5869: labeled
derivation, encapsulation in base and authenticated mode, the key schedule without a
pre-shared key, and the derivation of key pairs. One message of the crate is one message of
the document, and the failures that the crate provides for in its key derivation do not occur.
-/

namespace Blindplane.Crypto.Hpke

open Lib Lib.Utf8 Lib.Checked

section KeyPairs

variable [Primitives]

/-- Derive a key pair from input keying material. The expansion is not asked whether it
    failed; the buffer would then be as it was. -/
def deriveKeyPair (ikm : Bytes) : StaticSecret :=
  let dkpPrk := labeledExtract [] kemSuiteId (asBytes "dkp_prk") ikm
  let secret := (labeledExpand dkpPrk kemSuiteId (asBytes "sk") [] (.replicate 32 0)).toOption.getD (.replicate 32 0)
  { secret }

end KeyPairs

namespace Rfc9180

section Derivation

variable [Primitives]

def labeledExtract (salt suiteId label ikm : Bytes) : Vector UInt8 32 :=
  fixed 32 (hmac salt (asBytes "HPKE-v1" ++ suiteId ++ label ++ ikm))

def labeledExpand (prk : Vector UInt8 32) (suiteId label info : Bytes) (length : Nat) : Bytes :=
  (stream prk (Bytes.be 2 length ++ asBytes "HPKE-v1" ++ suiteId ++ label ++ info) ((length + 31) / 32)).take length

/-- DHKEM(X25519, HKDF-SHA256) is number 0x0020. -/
def kemSuiteId : Bytes := asBytes "KEM" ++ Bytes.be 2 0x0020

/-- HKDF-SHA256 is number 1. XChaCha20-Poly1305 has no number of its own; the crate gives it
    the one of ChaCha20-Poly1305. -/
def hpkeSuiteId (suite : Suite) : Bytes :=
  asBytes "HPKE" ++ Bytes.be 2 0x0020 ++ Bytes.be 2 0x0001 ++ Bytes.be 2 (if suite = .aes256Gcm then 0x0002 else 0x0003)

def extractAndExpand (dh kemContext : Bytes) : Vector UInt8 32 :=
  let eaePrk := labeledExtract [] kemSuiteId (asBytes "eae_prk") dh
  fixed 32 (labeledExpand eaePrk kemSuiteId (asBytes "shared_secret") kemContext 32)

/-- `KeySchedule` with an empty pre-shared key. -/
def keySchedule (suite : Suite) (mode : UInt8) (sharedSecret : Vector UInt8 32) (info : Bytes) : KeySchedule :=
  let suiteId := hpkeSuiteId suite
  let pskIdHash := labeledExtract [] suiteId (asBytes "psk_id_hash") []
  let infoHash := labeledExtract [] suiteId (asBytes "info_hash") info
  let context := [mode] ++ pskIdHash.toList ++ infoHash.toList
  let secret := labeledExtract sharedSecret.toList suiteId (asBytes "secret") []
  { key := fixed 32 (labeledExpand secret suiteId (asBytes "key") context 32)
    baseNonce := fixed 12 (labeledExpand secret suiteId (asBytes "base_nonce") context 12) }

end Derivation

section Messages

variable [ClientPrimitives]

/-- `DH`, which refuses a value that is all zero. -/
def dh (secret : StaticSecret) (publicKey : Vector UInt8 32) : Option Bytes :=
  let value := ClientPrimitives.x25519 secret.secret publicKey
  if value = .replicate 32 0 then none else some value.toList

/-- `Encap`, and `AuthEncap` where there is a sender: the shared secret for an ephemeral key. -/
def encap (ephemeral : StaticSecret) (recipient : Vector UInt8 32) :
    (sender : Option StaticSecret) → Option (Vector UInt8 32)
  | none => do
      let first ← dh ephemeral recipient
      return extractAndExpand first (ephemeral.publicKey.toList ++ recipient.toList)
  | some sender => do
      let first ← dh ephemeral recipient
      let second ← dh sender recipient
      return extractAndExpand (first ++ second)
        (ephemeral.publicKey.toList ++ recipient.toList ++ sender.publicKey.toList)

/-- `Decap`, and `AuthDecap` where there is a sender. -/
def decap (enc : Vector UInt8 32) (recipient : StaticSecret) :
    (sender : Option (Vector UInt8 32)) → Option (Vector UInt8 32)
  | none => do
      let first ← dh recipient enc
      return extractAndExpand first (enc.toList ++ recipient.publicKey.toList)
  | some sender => do
      let first ← dh recipient enc
      let second ← dh recipient sender
      return extractAndExpand (first ++ second) (enc.toList ++ recipient.publicKey.toList ++ sender.toList)

/-- `mode_auth` is 2 and `mode_base` is 0. -/
def mode (authenticated : Bool) : UInt8 := if authenticated then 2 else 0

/-- One message to a recipient. -/
def sealOnce (suite : Suite) (ephemeral : StaticSecret) (recipient : Vector UInt8 32) (sender : Option StaticSecret)
    (info associatedData plaintext : Bytes) : Except HpkeError (Bytes × Bytes) := do
  let sharedSecret ← okOr (encap ephemeral recipient sender) .invalidPeerKey
  let schedule := keySchedule suite (mode sender.isSome) sharedSecret info
  let ciphertext ← (ClientPrimitives.aeadSeal suite schedule.key schedule.baseNonce.toList associatedData
    plaintext).mapError .aead
  return (ephemeral.publicKey.toList, ciphertext)

def openOnce (suite : Suite) (recipient : StaticSecret) (enc : Bytes) (sender : Option (Vector UInt8 32))
    (info associatedData ciphertext : Bytes) : Except HpkeError Bytes := do
  let enc ← okOr (Bytes.asArray 32 enc) .invalidPeerKey
  let sharedSecret ← okOr (decap enc recipient sender) .invalidPeerKey
  let schedule := keySchedule suite (mode sender.isSome) sharedSecret info
  (ClientPrimitives.aeadOpen suite schedule.key schedule.baseNonce.toList associatedData ciphertext).mapError .aead

end Messages

end Rfc9180

section Conformance

variable [Primitives]

theorem labeledExtract_eq (salt suiteId label ikm : Bytes) :
    labeledExtract salt suiteId label ikm = Rfc9180.labeledExtract salt suiteId label ikm := by
  apply Vector.toList_inj.mp
  have length : (hmac salt (asBytes "HPKE-v1" ++ suiteId ++ label ++ ikm)).length = 32 := Vector.length_toList
  rw [labeledExtract, hkdfExtract, mac_eq_hmac, Rfc9180.labeledExtract, fixed_toList length]
  rfl

theorem Rfc9180.labeledExpand_length (prk : Vector UInt8 32) (suiteId label info : Bytes) (length : Nat) :
    (Rfc9180.labeledExpand prk suiteId label info length).length = length := by
  rw [Rfc9180.labeledExpand, List.length_take, length_stream]
  omega

/-- As far as two bytes hold the length, an expansion never fails, and does not depend on
    what the buffer held. -/
theorem labeledExpand_eq {n : Nat} (prk : Vector UInt8 32) (suiteId label info : Bytes) (out : Vector UInt8 n)
    (few : n ≤ 8160) :
    labeledExpand prk suiteId label info out = .ok (fixed n (Rfc9180.labeledExpand prk suiteId label info n)) := by
  have number : Bytes.u16 (UInt16.ofNat n) = Bytes.be 2 n := by
    rw [Bytes.u16, UInt16.toNat_ofNat_of_lt' (Nat.lt_of_le_of_lt few (by decide))]
  obtain ⟨accepted, filled, -⟩ := hkdfExpand_toList prk
    (Bytes.u16 (UInt16.ofNat n) ++ VERSION_LABEL ++ suiteId ++ label ++ info) out few
  simp only [labeledExpand, accepted, if_true]
  apply congrArg Except.ok
  apply Vector.toList_inj.mp
  rw [filled, fixed_toList (Rfc9180.labeledExpand_length prk suiteId label info n), number]
  rfl

omit [Primitives] in
theorem kemSuiteId_eq : kemSuiteId = Rfc9180.kemSuiteId := rfl

omit [Primitives] in
theorem hpkeSuiteId_eq (suite : Suite) : hpkeSuiteId suite = Rfc9180.hpkeSuiteId suite := by
  cases suite <;> rfl

theorem extractAndExpand_eq (dh kemContext : Bytes) :
    extractAndExpand dh kemContext = .ok (Rfc9180.extractAndExpand dh kemContext) := by
  rw [extractAndExpand, labeledExpand_eq _ _ _ _ _ (by decide), labeledExtract_eq, kemSuiteId_eq]
  rfl

theorem keySchedule_eq (suite : Suite) (mode : UInt8) (sharedSecret : Vector UInt8 32) (info : Bytes) :
    keySchedule suite mode sharedSecret info = .ok (Rfc9180.keySchedule suite mode sharedSecret info) := by
  simp only [keySchedule, labeledExtract_eq, hpkeSuiteId_eq]
  rw [labeledExpand_eq _ _ _ _ _ (by decide), ok_bind, labeledExpand_eq _ _ _ _ _ (by decide), ok_bind]
  rfl

theorem deriveKeyPair_eq (ikm : Bytes) :
    (deriveKeyPair ikm).secret.toList = Rfc9180.labeledExpand
      (Rfc9180.labeledExtract [] Rfc9180.kemSuiteId (asBytes "dkp_prk") ikm) Rfc9180.kemSuiteId (asBytes "sk") [] 32 := by
  simp only [deriveKeyPair, labeledExtract_eq, kemSuiteId_eq]
  rw [labeledExpand_eq _ _ _ _ _ (by decide)]
  exact fixed_toList (Rfc9180.labeledExpand_length _ _ _ _ _)

end Conformance

section Exchange

variable [ClientPrimitives]

/-- The key schedule of a transcript is that of its shared secret. -/
theorem transcriptSchedule_eq (suite : Suite) (info dh kemContext : Bytes) (mode : UInt8) :
    transcriptSchedule suite info (dh, kemContext, mode) =
      .ok (Rfc9180.keySchedule suite mode (Rfc9180.extractAndExpand dh kemContext) info) := by
  rw [transcriptSchedule, extractAndExpand_eq, ok_bind, keySchedule_eq]

theorem diffieHellman_eq (secret : StaticSecret) (publicKey : Vector UInt8 32) :
    (secret.diffieHellman publicKey).map Vector.toList = Rfc9180.dh secret publicKey := by
  simp only [StaticSecret.diffieHellman, StaticSecret.keyMaterial, Rfc9180.dh]
  split <;> rfl

/-- What the sender feeds the key schedule makes the document's shared secret. -/
theorem senderTranscript_eq (suite : Suite) (info : Bytes) (ephemeral : StaticSecret) (recipient : Vector UInt8 32)
    (sender : Option StaticSecret) :
    (senderTranscript ephemeral recipient sender >>= transcriptSchedule suite info) =
      (okOr (Rfc9180.encap ephemeral recipient sender) .invalidPeerKey).map fun sharedSecret =>
        Rfc9180.keySchedule suite (Rfc9180.mode sender.isSome) sharedSecret info := by
  cases sender with
  | none =>
      simp only [senderTranscript, Rfc9180.encap, ← diffieHellman_eq]
      cases ephemeral.diffieHellman recipient with
      | none => rfl
      | some first =>
          simp only [okOr_some_bind, bindSender, ok_bind, transcriptSchedule_eq]
          rfl
  | some sender =>
      simp only [senderTranscript, Rfc9180.encap, ← diffieHellman_eq]
      cases ephemeral.diffieHellman recipient with
      | none => rfl
      | some first =>
          simp only [okOr_some_bind, bindSender, Option.map_some]
          cases sender.diffieHellman recipient with
          | none => rfl
          | some second =>
              simp only [okOr_some_bind, pure_bind, transcriptSchedule_eq]
              rfl

/-- What the receiver feeds it, where the encapsulated key has its length. -/
theorem received_eq (suite : Suite) (info : Bytes) (recipient : StaticSecret) (enc : Vector UInt8 32)
    (sender : Option (Vector UInt8 32)) :
    ((okOr (recipient.diffieHellman enc) .invalidPeerKey >>= fun ephemeralDh =>
        bindSender sender recipient.diffieHellman id ephemeralDh.toList (enc.toList ++ recipient.publicKey.toList)) >>=
      transcriptSchedule suite info) =
      (okOr (Rfc9180.decap enc recipient sender) .invalidPeerKey).map fun sharedSecret =>
        Rfc9180.keySchedule suite (Rfc9180.mode sender.isSome) sharedSecret info := by
  cases sender with
  | none =>
      simp only [Rfc9180.decap, ← diffieHellman_eq]
      cases recipient.diffieHellman enc with
      | none => rfl
      | some first =>
          simp only [okOr_some_bind, bindSender, ok_bind, transcriptSchedule_eq]
          rfl
  | some sender =>
      simp only [Rfc9180.decap, ← diffieHellman_eq]
      cases recipient.diffieHellman enc with
      | none => rfl
      | some first =>
          simp only [okOr_some_bind, bindSender, Option.map_some]
          cases recipient.diffieHellman sender with
          | none => rfl
          | some second =>
              simp only [okOr_some_bind, pure_bind, transcriptSchedule_eq]
              rfl

theorem receiverTranscript_eq (suite : Suite) (info : Bytes) (recipient : StaticSecret) (enc : Bytes)
    (sender : Option (Vector UInt8 32)) :
    (receiverTranscript recipient enc sender >>= transcriptSchedule suite info) =
      (okOr (Bytes.asArray 32 enc) .invalidPeerKey >>= fun enc =>
        (okOr (Rfc9180.decap enc recipient sender) .invalidPeerKey).map fun sharedSecret =>
          Rfc9180.keySchedule suite (Rfc9180.mode sender.isSome) sharedSecret info) := by
  simp only [receiverTranscript, bind_assoc, ← received_eq]
  rfl

/-- In both modes and for every suite, key and input, what the crate seals and what it opens
    is what the document's single-shot functions do, refusal for refusal; and a derived key
    pair is the document's. -/
theorem hpke_eq_rfc9180 (suite : Suite) (info associatedData : Bytes) :
    (∀ ephemeral recipient sender plaintext,
      sealWithEphemeral suite ephemeral recipient sender info associatedData plaintext =
        Rfc9180.sealOnce suite ephemeral recipient sender info associatedData plaintext) ∧
    (∀ recipient enc sender ciphertext,
      openInner suite recipient enc sender info associatedData ciphertext =
        Rfc9180.openOnce suite recipient enc sender info associatedData ciphertext) ∧
    ∀ ikm, (deriveKeyPair ikm).secret.toList = Rfc9180.labeledExpand
      (Rfc9180.labeledExtract [] Rfc9180.kemSuiteId (asBytes "dkp_prk") ikm) Rfc9180.kemSuiteId (asBytes "sk") [] 32 := by
  refine ⟨fun ephemeral recipient sender plaintext => ?_, fun recipient enc sender ciphertext => ?_, deriveKeyPair_eq⟩
  · rw [sealWithEphemeral_eq, ← bind_assoc, senderTranscript_eq, Rfc9180.sealOnce]
    cases Rfc9180.encap ephemeral recipient sender <;> rfl
  · rw [openInner_eq, ← bind_assoc, receiverTranscript_eq, Rfc9180.openOnce]
    cases Bytes.asArray 32 enc with
    | none => rfl
    | some enc =>
        simp only [okOr_some_bind]
        cases Rfc9180.decap enc recipient sender <;> rfl

end Exchange

end Blindplane.Crypto.Hpke
