import Blindplane.Crypto.Recording

/-! # The two sides of an encapsulation

Sender and receiver build one transcript from opposite halves of each key pair. What the
key schedule is fed, and so what it derives, is the same on both sides; where one side is
refused a Diffie-Hellman value, so is the other.
-/

namespace Blindplane.Crypto.Hpke

open Lib Lib.Utf8 Lib.Checked

section Transcripts

variable [ClientPrimitives]

/-- What the sender feeds the key schedule: the Diffie-Hellman values, the KEM context and
    the mode. -/
def senderTranscript (ephemeral : StaticSecret) (recipientPublicKey : Vector UInt8 32)
    (senderSecret : Option StaticSecret) : Except HpkeError (Bytes × Bytes × UInt8) := do
  let ephemeralDh ← okOr (ephemeral.diffieHellman recipientPublicKey) .invalidPeerKey
  bindSender senderSecret (·.diffieHellman recipientPublicKey) StaticSecret.publicKey ephemeralDh.toList
    (ephemeral.publicKey.toList ++ recipientPublicKey.toList)

/-- What the receiver feeds it. -/
def receiverTranscript (recipientSecret : StaticSecret) (encapsulatedKey : Bytes)
    (senderPublicKey : Option (Vector UInt8 32)) : Except HpkeError (Bytes × Bytes × UInt8) := do
  let enc ← okOr (Bytes.asArray ENCAPSULATED_KEY_LEN encapsulatedKey) .invalidPeerKey
  let ephemeralDh ← okOr (recipientSecret.diffieHellman enc) .invalidPeerKey
  bindSender senderPublicKey recipientSecret.diffieHellman id ephemeralDh.toList
    (enc.toList ++ recipientSecret.publicKey.toList)

/-- The key schedule of a transcript. -/
def transcriptSchedule (suite : Suite) (info : Bytes) (transcript : Bytes × Bytes × UInt8) :
    Except HpkeError KeySchedule := do
  let shared ← extractAndExpand transcript.1 transcript.2.1
  keySchedule suite transcript.2.2 shared info

theorem sealWithEphemeral_eq (suite : Suite) (ephemeral : StaticSecret) (recipientPublicKey : Vector UInt8 32)
    (sender : Option StaticSecret) (info associatedData plaintext : Bytes) :
    sealWithEphemeral suite ephemeral recipientPublicKey sender info associatedData plaintext = (do
      let transcript ← senderTranscript ephemeral recipientPublicKey sender
      let schedule ← transcriptSchedule suite info transcript
      let ciphertext ← (ClientPrimitives.aeadSeal suite schedule.key schedule.baseNonce.toList associatedData
        plaintext).mapError .aead
      return (ephemeral.publicKey.toList, ciphertext)) := by
  simp only [sealWithEphemeral, senderTranscript, transcriptSchedule, bind_assoc]

theorem openInner_eq (suite : Suite) (recipientSecret : StaticSecret) (encapsulatedKey : Bytes)
    (senderPublicKey : Option (Vector UInt8 32)) (info associatedData ciphertext : Bytes) :
    openInner suite recipientSecret encapsulatedKey senderPublicKey info associatedData ciphertext = (do
      let transcript ← receiverTranscript recipientSecret encapsulatedKey senderPublicKey
      let schedule ← transcriptSchedule suite info transcript
      (ClientPrimitives.aeadOpen suite schedule.key schedule.baseNonce.toList associatedData
        ciphertext).mapError .aead) := by
  simp only [openInner, receiverTranscript, transcriptSchedule, bind_assoc]

/-- The two transcripts are one, byte for byte and refusal for refusal. -/
theorem transcripts_agree (agreement : Agreement) (secret ephemeral : StaticSecret) (sender : Option StaticSecret) :
    receiverTranscript secret ephemeral.publicKey.toList (sender.map StaticSecret.publicKey) =
      senderTranscript ephemeral secret.publicKey sender := by
  have received : Bytes.asArray ENCAPSULATED_KEY_LEN ephemeral.publicKey.toList = some ephemeral.publicKey :=
    Bytes.asArray_eq_some.mpr rfl
  simp only [receiverTranscript, bindSender_map agreement, received]
  show (do
    let ephemeralDh ← okOr (secret.diffieHellman ephemeral.publicKey) HpkeError.invalidPeerKey
    bindSender sender (·.diffieHellman secret.publicKey) StaticSecret.publicKey ephemeralDh.toList
      (ephemeral.publicKey.toList ++ secret.publicKey.toList)) = _
  rw [agreement secret ephemeral, senderTranscript]

/-- Only a Diffie-Hellman value that is all zero makes the transcript fail. -/
theorem senderTranscript_error {ephemeral : StaticSecret} {recipientPublicKey : Vector UInt8 32}
    {sender : Option StaticSecret} {e : HpkeError}
    (refused : senderTranscript ephemeral recipientPublicKey sender = .error e) :
    ClientPrimitives.x25519 ephemeral.secret recipientPublicKey = .replicate 32 0 ∨
      ∃ party ∈ sender, ClientPrimitives.x25519 party.secret recipientPublicKey = .replicate 32 0 := by
  have zero : ∀ party : StaticSecret, party.diffieHellman recipientPublicKey = none →
      ClientPrimitives.x25519 party.secret recipientPublicKey = .replicate 32 0 := by
    intro party missing
    rw [StaticSecret.diffieHellman, StaticSecret.keyMaterial] at missing
    by_contra nonzero
    rw [if_neg nonzero] at missing
    cases missing
  rw [senderTranscript] at refused
  cases agreed : ephemeral.diffieHellman recipientPublicKey with
  | none => exact .inl (zero ephemeral agreed)
  | some ephemeralDh =>
      rw [agreed, okOr_some_bind] at refused
      cases sender with
      | none => cases refused
      | some party =>
          rw [bindSender] at refused
          cases static : party.diffieHellman recipientPublicKey with
          | none => exact .inr ⟨party, rfl, zero party static⟩
          | some staticDh =>
              rw [static] at refused
              cases refused

/-- Key derivation has an error of its own. -/
theorem transcriptSchedule_raises {suite : Suite} {info : Bytes} {transcript : Bytes × Bytes × UInt8} :
    Raises (· ≠ .invalidPeerKey) (transcriptSchedule suite info transcript) := by
  have expands : ∀ {n : Nat} (prk : Vector UInt8 32) (suiteId label labelInfo : Bytes) (out : Vector UInt8 n),
      Raises (· ≠ .invalidPeerKey) (labeledExpand prk suiteId label labelInfo out) := by
    intro n prk suiteId label labelInfo out e failed
    simp only [labeledExpand] at failed
    split at failed
    · cases failed
    · obtain rfl := Except.error.inj failed
      simp
  rw [transcriptSchedule]
  apply Raises.bind
  · rw [extractAndExpand]
    exact expands _ _ _ _ _
  · intro shared _
    rw [keySchedule]
    apply Raises.bind (expands _ _ _ _ _)
    intro key _
    apply Raises.bind (expands _ _ _ _ _)
    intro baseNonce _
    exact Raises.ok _

/-- What one side seals the other opens; what one side is refused the other is refused; and
    both feed their key schedules the same bytes. -/
theorem sides_agree {suite : Suite} (agreement : Agreement) (opens : suite.OpensSealed)
    (secret ephemeral : StaticSecret) (sender : Option StaticSecret) (info associatedData plaintext : Bytes) :
    (∀ enc ciphertext,
      sealWithEphemeral suite ephemeral secret.publicKey sender info associatedData plaintext = .ok (enc, ciphertext) →
        openInner suite secret enc (sender.map StaticSecret.publicKey) info associatedData ciphertext =
          .ok plaintext) ∧
    (sealWithEphemeral suite ephemeral secret.publicKey sender info associatedData plaintext =
        .error .invalidPeerKey →
      (ClientPrimitives.x25519 ephemeral.secret secret.publicKey = .replicate 32 0 ∨
        ∃ party ∈ sender, ClientPrimitives.x25519 party.secret secret.publicKey = .replicate 32 0) ∧
      ∀ ciphertext, openInner suite secret ephemeral.publicKey.toList (sender.map StaticSecret.publicKey) info
        associatedData ciphertext = .error .invalidPeerKey) ∧
    receiverTranscript secret ephemeral.publicKey.toList (sender.map StaticSecret.publicKey) =
      senderTranscript ephemeral secret.publicKey sender ∧
    (receiverTranscript secret ephemeral.publicKey.toList (sender.map StaticSecret.publicKey) >>=
        transcriptSchedule suite info) =
      (senderTranscript ephemeral secret.publicKey sender >>= transcriptSchedule suite info) := by
  have same := transcripts_agree agreement secret ephemeral sender
  refine ⟨fun enc ciphertext done => openInner_sealed agreement opens done, fun refused => ?_, same, by rw [same]⟩
  rw [sealWithEphemeral_eq] at refused
  cases fed : senderTranscript ephemeral secret.publicKey sender with
  | error e =>
      rw [fed] at refused
      obtain rfl : e = .invalidPeerKey := Except.error.inj refused
      refine ⟨senderTranscript_error fed, fun ciphertext => ?_⟩
      rw [openInner_eq, same, fed]
      rfl
  | ok transcript =>
      rw [fed] at refused
      have later : Raises (· ≠ .invalidPeerKey) (do
          let schedule ← transcriptSchedule suite info transcript
          let ciphertext ← (ClientPrimitives.aeadSeal suite schedule.key schedule.baseNonce.toList associatedData
            plaintext).mapError HpkeError.aead
          return (ephemeral.publicKey.toList, ciphertext)) := by
        apply Raises.bind transcriptSchedule_raises
        intro schedule _
        apply Raises.bind
        · apply Raises.mapError
          intro e _
          simp
        · intro ciphertext _
          exact Raises.ok _
      exact absurd rfl (later _ refused)

end Transcripts

section Sample

/-- What was wrapped for the secret that is all 2, under the ephemeral one that is all 6. -/
private def sampleEncapsulation : Encapsulation where
  encapsulatedKey := word 0xf5b2d6e60f9477e310c2982daaa6c9136c108a1777c5947e448fa37d68174557
  dh := word 0xaaa0841662764aeab7f1ee7adb452f2c7efc93f6aa8e327d91c4a23cb737d130
  eaePrkInner := word 0x7dde184d5154ad29bcdc630fea9b04629284032d6a67115aea64d5be0044a1c8
  eaePrk := word 0xd66852928f069f552d725b7a962c551d434db8105d344fca3027d9f34fe2c291
  sharedSecretInner := word 0xbf07898d67d2dd651a9c5acbc9369e9b06a7b1cfa518eb49029bbfc8656f31ea
  sharedSecret := word 0x21cbe3e57e81ceb0eb9744124a2b79c4c48f9fb46665976391cc798a5abe2942
  pskIdHashInner := word 0x33054b9e49aa00849419f3850290b78cf6879376bde4a78ba7029e80fc5beb33
  pskIdHash := word 0x431df6cd95e11ff49d7013563baf7f11588c75a6611ee2a4404a49306ae4cfc5
  infoHashInner := word 0x5aa32fb1f6d9d25edc003b572b797cc4d0589278846e00f33d5d8f104844ca76
  infoHash := word 0x292cd9ec77066311b05c080baa8e4a923828f83796c84a09f2e5b67f8faad9ad
  secretInner := word 0xfb8388174cafd6d88a401650a651f240537a8866816acd9531a883c4689850a4
  secret := word 0xf6dd6de23d4a4068d76f17e7ff82d987604ef0f3824a39fed4c4b83dc146d400
  keyInner := word 0xac291d1d1a928980d16d1ba20a62263eadb386cffded9d16b3a97659e5fe3540
  key := word 0xbd0d9a1708be6e47d4607e810a14ea2b389ffdbef56ad71b137f9e163c819010
  baseNonceInner := word 0xb11f1bb4a55926a0aa55c3b604db4d02d7b4c4e6e44234c394723b80c3b56411
  baseNonce := word 0xdbedf161690373db8a4d8836af1f3a1684af666f49269e998b9a00e867ad7832
  wrappedDek := Bytes.be 32 0x92535fffe16516c8d1a865a2f651337cd4c4f3de752352b989767234d81f3015 ++
    Bytes.be 16 0x7aa785e6aaa9f92c937f0725a1f3a85b

private def samplePublicKey : Vector UInt8 32 :=
  word 0xce8d3ad1ccb633ec7b70c17814a5c76ecd029685050d344745ba05870e587d59

/-- The same for an authenticated sender, whose secret is all 4. -/
private def authEncapsulation : Encapsulation :=
  { sampleEncapsulation with
    eaePrkInner := word 0x7fd26663a647c3fe519579364415c39130f5c4c617c70226c3313b3a14ef1556
    eaePrk := word 0x876b34ee26d0dd9d9ccc87ee5c3840c350e916a590a5d2a1d3fc5673d7740297
    sharedSecretInner := word 0xd4ad2ef6e63d4056b2506f9b481727f24f81762c0bdacb15069b5aa1a7565951
    sharedSecret := word 0x5a07fdabe357228c4989dcda9055774f7b9a66de5fe1335ce24d00ccd7cd4c5e
    secretInner := word 0x0a650a91d4038744b4d41e866841eca94c427e16aead033b3135381486cf60f0
    secret := word 0x23816c16d962281ec5a1b2586dd368830344c5c762c16202934040ed1d5f2ea0
    keyInner := word 0x41769a05149cfd17904237388ce5c1f7b602b91dc9383a21fd056097a41192a1
    key := word 0x3bf3213aaef92ef9dc171d2223375386a2b5db4a1ab937b38a3608a94989e07e
    baseNonceInner := word 0x5366da2679f66929325e0141333d8988efeba5a6e9784723be08275805e59661
    baseNonce := word 0x820b3f60ba2fcd6e41e097a374b277ed619477dc0fb6a4e12e03e63d0114fee0
    wrappedDek := Bytes.be 32 0x1afb6a497d52e607837f7c2c0ebefe47a84cf911b798816c4c2ec777a23fd2c3 ++
      Bytes.be 16 0xf2675d3ba11bcf0ce5b612e96e2bc4df }

private def senderPublicKey : Vector UInt8 32 :=
  word 0xac01b2209e86354fb853237b5de0f4fab13c7fcbf433a61c019369617fecf10b

private def senderDh : Vector UInt8 32 :=
  word 0x09bb974ce3799959096660bdece3bb89ca106e6df31c2f701b7b8b9977047c34

/-- What the authenticated sender hashes that the anonymous one does not. -/
private def authDigests : List (Bytes × Vector UInt8 32) :=
  let values := authEncapsulation
  let kem (label : String) : Bytes := VERSION_LABEL ++ kemSuiteId ++ asBytes label
  let hpke (label : String) : Bytes := VERSION_LABEL ++ hpkeSuiteId .chaCha20Poly1305 ++ asBytes label
  let context := MODE_AUTH :: values.pskIdHash.toList ++ values.infoHash.toList
  macDigests [] (kem "eae_prk" ++ values.dh.toList ++ senderDh.toList) values.eaePrkInner values.eaePrk ++
    macDigests values.eaePrk.toList
      (Bytes.u16 32 ++ kem "shared_secret" ++ values.encapsulatedKey.toList ++ samplePublicKey.toList ++
        senderPublicKey.toList ++ [1])
      values.sharedSecretInner values.sharedSecret ++
    macDigests values.sharedSecret.toList (hpke "secret") values.secretInner values.secret ++
    macDigests values.secret.toList (Bytes.u16 32 ++ hpke "key" ++ context ++ [1]) values.keyInner values.key ++
    macDigests values.secret.toList (Bytes.u16 12 ++ hpke "base_nonce" ++ context ++ [1]) values.baseNonceInner
      values.baseNonce

private def wrapping (values : Encapsulation) : Sealing where
  suite := .chaCha20Poly1305
  key := values.key
  nonce := values.baseNonce.toList.take 12
  aad := asBytes "aad"
  plaintext := List.replicate 32 3
  ciphertext := values.wrappedDek

private def sampleRecording : Recording where
  author := .replicate 32 0
  digests := sampleEncapsulation.digests samplePublicKey (asBytes "info") ++ authDigests
  signatures := []
  products :=
    [((.replicate 32 2, BASEPOINT), samplePublicKey),
      ((.replicate 32 4, BASEPOINT), senderPublicKey),
      ((.replicate 32 6, BASEPOINT), sampleEncapsulation.encapsulatedKey),
      ((.replicate 32 6, samplePublicKey), sampleEncapsulation.dh),
      ((.replicate 32 2, sampleEncapsulation.encapsulatedKey), sampleEncapsulation.dh),
      ((.replicate 32 4, samplePublicKey), senderDh),
      ((.replicate 32 2, senderPublicKey), senderDh)]
  sealings := [wrapping sampleEncapsulation, wrapping authEncapsulation]

@[reducible] private def samplePrimitives : ClientPrimitives := sampleRecording.primitives

attribute [local instance] samplePrimitives

private theorem sample_agreement : Agreement :=
  @Recording.agreement sampleRecording [⟨.replicate 32 2⟩, ⟨.replicate 32 4⟩, ⟨.replicate 32 6⟩]
    { scalars := by decide +kernel
      points := by decide +kernel
      products := by decide +kernel }

private theorem sample_opens : Suite.chaCha20Poly1305.OpensSealed :=
  Recording.opensSealed (by decide +kernel) .chaCha20Poly1305

/-- A wrapped secret opens for the key it was wrapped for, from an anonymous sender and from
    one that its receiver knows. -/
theorem sample_sides_agree :
    openInner .chaCha20Poly1305 ⟨.replicate 32 2⟩ sampleEncapsulation.encapsulatedKey.toList none (asBytes "info")
        (asBytes "aad") sampleEncapsulation.wrappedDek = .ok (List.replicate 32 3) ∧
      openInner .chaCha20Poly1305 ⟨.replicate 32 2⟩ authEncapsulation.encapsulatedKey.toList
        (some (StaticSecret.mk (.replicate 32 4)).publicKey) (asBytes "info") (asBytes "aad")
          authEncapsulation.wrappedDek = .ok (List.replicate 32 3) :=
  ⟨(sides_agree sample_agreement sample_opens ⟨.replicate 32 2⟩ ⟨.replicate 32 6⟩ none (asBytes "info") (asBytes "aad")
      (List.replicate 32 3)).1 _ _ (by decide +kernel),
    (sides_agree sample_agreement sample_opens ⟨.replicate 32 2⟩ ⟨.replicate 32 6⟩ (some ⟨.replicate 32 4⟩)
      (asBytes "info") (asBytes "aad") (List.replicate 32 3)).1 _ _ (by decide +kernel)⟩

end Sample

end Blindplane.Crypto.Hpke
