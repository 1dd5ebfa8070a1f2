import Blindplane.Core.Assembled

/-! # One client on several machines

What a build computes depends on its CPU in one way only: a machine without AES instructions
refuses the AES suite. Records, signatures and envelopes made on one machine are those made on
any other, and open there.
-/

namespace Blindplane.Core

open Lib Lib.Utf8 Lib.Checked Crypto Wire

section Canonical

def digest256 (message : Bytes) : Vector UInt8 32 := fixed 32 (Sha2.sha256Blocks.digest message)

def digest512 (message : Bytes) : Vector UInt8 64 := fixed 64 (Sha2.sha512Blocks.digest message)

variable (sha256 : Bytes → Vector UInt8 32) (sha512 : Bytes → Vector UInt8 64)

/-- The keyless primitives over two hashes. -/
@[reducible] def keylessOver : Primitives where
  sha256
  verifyStrict := Crypto.verifyStrict sha512
  PreparedVerifier := Crypto.PreparedVerifier
  publicKey := Crypto.PreparedVerifier.publicKey
  preparedVerifyStrict := Crypto.PreparedVerifier.verifyStrict sha512

/-- The primitives over two hashes, with the suites that a target runs. -/
@[reducible] def primitivesOver (target : Target) : ClientPrimitives where
  toPrimitives := keylessOver sha256 sha512
  verifyingKey seed := (SigningKey.fromSeed sha512 seed).verifyingKey
  sign seed message := (SigningKey.fromSeed sha512 seed).sign sha512 message
  x25519 scalar point := (Crypto.x25519 scalar point : Id (Vector UInt8 32))
  aeadSeal suite key nonce aad plaintext :=
    (suite.«seal» target key nonce aad plaintext : Id (Except AeadError Bytes))
  aeadOpen suite key nonce aad ciphertext :=
    (suite.«open» target key nonce aad ciphertext : Id (Except AeadError Bytes))

/-- The primitives over the digests of whole messages. -/
@[reducible] def canonical (target : Target) : ClientPrimitives := primitivesOver digest256 digest512 target

theorem sha256_eq (machine : Cpu) : @Crypto.sha256 machine = digest256 :=
  funext fun message => Vector.toList_inj.mp
    ((@toList_sha256 machine message).trans (fixed_toList (Sha2.State.bytes_length _)).symm)

theorem sha512_eq (machine : Cpu) : @Crypto.sha512 machine = digest512 :=
  funext fun message => Vector.toList_inj.mp
    ((@toList_sha512 machine message).trans (fixed_toList (Sha2.State.bytes_length _)).symm)

/-- Hashing hardware makes no difference. -/
theorem primitives_eq (machine : Cpu) : @Cpu.primitives machine = canonical machine.target := by
  show primitivesOver (@Crypto.sha256 machine) (@Crypto.sha512 machine) machine.target = _
  rw [sha256_eq, sha512_eq]

end Canonical

section Agreement

variable {here there : Target} {suite : Suite}

theorem aeadSeal_agrees (alike : suite.isAvailable here = suite.isAvailable there) :
    (canonical there).aeadSeal suite = (canonical here).aeadSeal suite := by
  funext key nonce aad plaintext
  exact (suite.seal_eq there key nonce aad plaintext Id).trans
    (alike ▸ (suite.seal_eq here key nonce aad plaintext Id).symm)

theorem aeadOpen_agrees (alike : suite.isAvailable here = suite.isAvailable there) :
    (canonical there).aeadOpen suite = (canonical here).aeadOpen suite := by
  funext key nonce aad ciphertext
  exact (suite.open_eq there key nonce aad ciphertext Id).trans
    (alike ▸ (suite.open_eq here key nonce aad ciphertext Id).symm)

theorem sealWithEphemeral_agrees (alike : suite.isAvailable here = suite.isAvailable there) :
    @Hpke.sealWithEphemeral (canonical there) suite = @Hpke.sealWithEphemeral (canonical here) suite := by
  funext ephemeral recipientPublicKey sender info associatedData plaintext
  unfold Hpke.sealWithEphemeral
  rw [aeadSeal_agrees alike]
  rfl

theorem openInner_agrees (alike : suite.isAvailable here = suite.isAvailable there) :
    @Hpke.openInner (canonical there) suite = @Hpke.openInner (canonical here) suite := by
  funext secret encapsulatedKey sender info associatedData ciphertext
  unfold Hpke.openInner
  rw [aeadOpen_agrees alike]
  rfl

/-- A key pair as another machine restores it. -/
def moved (there : Target) (keypair : @RecipientKeypair (canonical here)) : @RecipientKeypair (canonical there) :=
  @RecipientKeypair.mk (canonical there) (@RecipientKeypair.recipient (canonical here) keypair)
    (@RecipientKeypair.secret (canonical here) keypair) (@RecipientKeypair.derived (canonical here) keypair)

theorem wrapDek_agrees (here there : Target) : @wrapDek (canonical there) = @wrapDek (canonical here) := by
  have same : @Hpke.sealWithEphemeral (canonical there) .chaCha20Poly1305 =
      @Hpke.sealWithEphemeral (canonical here) .chaCha20Poly1305 := sealWithEphemeral_agrees rfl
  funext recipient objectSecret context
  unfold wrapDek Hpke.seal
  rw [same]

theorem unwrapDek_agrees (record : SealedRecord) (envelope : RecipientEnvelope)
    (keypair : @RecipientKeypair (canonical here)) :
    @unwrapDek (canonical there) record envelope (moved there keypair) =
      @unwrapDek (canonical here) record envelope keypair := by
  have same : @Hpke.openInner (canonical there) .chaCha20Poly1305 = @Hpke.openInner (canonical here) .chaCha20Poly1305 :=
    openInner_agrees rfl
  unfold unwrapDek Hpke.open
  rw [same]
  rfl

variable [Features]

theorem seal_agrees (alike : suite.isAvailable here = suite.isAvailable there) (author : Author)
    (context : RecordContext) (plaintext : Bytes) (recipients : List (@Recipient (keylessOver digest256 digest512)))
    (indexes : List BlindIndex) :
    @Core.seal (canonical there) _ author context plaintext recipients indexes suite =
      @Core.seal (canonical here) _ author context plaintext recipients indexes suite := by
  unfold Core.seal
  rw [wrapDek_agrees here there, aeadSeal_agrees alike]
  rfl

omit [Features] in
theorem open_agrees {record : SealedRecord} (alike : record.suite.isAvailable here = record.suite.isAvailable there)
    (keypair : @RecipientKeypair (canonical here)) (expectedSigner : Vector UInt8 32) :
    @Core.open (canonical there) record (moved there keypair) expectedSigner =
      @Core.open (canonical here) record keypair expectedSigner := by
  have openings := aeadOpen_agrees alike
  unfold Core.open openValidated
  simp only [unwrapDek_agrees]
  rw [openings]
  rfl

theorem grantRecipient_agrees (record : SealedRecord) (keypair : @RecipientKeypair (canonical here)) (author : Author)
    (recipient : @Recipient (keylessOver digest256 digest512)) :
    @grantRecipient (canonical there) _ record (moved there keypair) author recipient =
      @grantRecipient (canonical here) _ record keypair author recipient := by
  unfold grantRecipient
  simp only [unwrapDek_agrees]
  rw [wrapDek_agrees here there]
  rfl

theorem rekey_agrees {record : SealedRecord} (alike : record.suite.isAvailable here = record.suite.isAvailable there)
    (keypair : @RecipientKeypair (canonical here)) (author : Author) (context : RecordContext)
    (recipients : List (@Recipient (keylessOver digest256 digest512))) (indexes : List BlindIndex) :
    @rekey (canonical there) _ record (moved there keypair) author context recipients indexes =
      @rekey (canonical here) _ record keypair author context recipients indexes := by
  unfold rekey
  simp only [open_agrees alike, seal_agrees alike]
  rfl

omit [Features] in
/-- A machine that does not run the suite opens nothing. -/
theorem open_refused {record : SealedRecord} (missing : record.suite.isAvailable here = false)
    (keypair : @RecipientKeypair (canonical here)) (expectedSigner : Vector UInt8 32) (plaintext : Bytes) :
    @Core.open (canonical here) record keypair expectedSigner ≠ .ok plaintext := by
  intro opened
  simp only [Core.open, openValidated, bind_eq_ok, mapError_eq_ok] at opened
  obtain ⟨-, -, -, -, -, -, keys, -, -, -, done⟩ := opened
  have refused := record.suite.open_eq here keys.1 record.nonce record.payloadAad record.ciphertext Id
  rw [missing] at refused
  have verdict := refused.symm.trans done
  simp only [pure, Bool.false_eq_true, not_false_eq_true, if_true] at verdict
  split at verdict <;> cases verdict

/-- And seals nothing. -/
theorem seal_refused (missing : suite.isAvailable here = false) (author : Author) (context : RecordContext)
    (plaintext : Bytes) (recipients : List (@Recipient (keylessOver digest256 digest512))) (indexes : List BlindIndex)
    (source : Entropy) (record : SealedRecord) (rest : Entropy) :
    @Core.seal (canonical here) _ author context plaintext recipients indexes suite source ≠ .ok (record, rest) := by
  intro done
  obtain ⟨-, -, sealedWith, -, objectSecret, -, dataKey, commitmentKey, -, -, encrypted⟩ :=
    @seal_ok (canonical here) _ _ _ _ _ _ _ _ _ _ done
  rw [sealedWith] at encrypted
  have refused := suite.seal_eq here dataKey record.nonce record.payloadAad plaintext Id
  rw [missing] at refused
  have verdict := refused.symm.trans encrypted
  simp only [pure, Bool.false_eq_true, and_false, if_false] at verdict
  cases verdict

/-- Every machine is one of the canonical ones: hashing hardware makes no difference, and two
    machines have the keyless primitives in common. With the same entropy, what one machine
    seals, grants, rekeys or opens is byte for byte, and refusal for refusal, what any other
    does that treats the suite alike; and a machine without the suite seals and opens nothing
    with it. -/
theorem machines_agree :
    (∀ machine : Cpu, @Cpu.primitives machine = canonical machine.target) ∧
    (∀ here there : Target, (canonical here).toPrimitives = (canonical there).toPrimitives) ∧
    (∀ (here there : Target) (suite : Suite), suite.isAvailable here = suite.isAvailable there →
      (∀ author context plaintext recipients indexes,
        @Core.seal (canonical there) _ author context plaintext recipients indexes suite =
          @Core.seal (canonical here) _ author context plaintext recipients indexes suite) ∧
      ∀ record, record.suite = suite → ∀ keypair : @RecipientKeypair (canonical here),
        (∀ expectedSigner, @Core.open (canonical there) record (moved there keypair) expectedSigner =
          @Core.open (canonical here) record keypair expectedSigner) ∧
        ∀ author context recipients indexes,
          @rekey (canonical there) _ record (moved there keypair) author context recipients indexes =
            @rekey (canonical here) _ record keypair author context recipients indexes) ∧
    (∀ (here there : Target) (record : SealedRecord) (keypair : @RecipientKeypair (canonical here)) author recipient,
      @grantRecipient (canonical there) _ record (moved there keypair) author recipient =
        @grantRecipient (canonical here) _ record keypair author recipient) ∧
    ∀ (here : Target) (suite : Suite), suite.isAvailable here = false →
      (∀ author context plaintext recipients indexes source record rest,
        @Core.seal (canonical here) _ author context plaintext recipients indexes suite source ≠ .ok (record, rest)) ∧
      ∀ record, record.suite = suite → ∀ keypair expectedSigner plaintext,
        @Core.open (canonical here) record keypair expectedSigner ≠ .ok plaintext := by
  refine ⟨primitives_eq, fun _ _ => rfl, fun here there suite alike => ⟨seal_agrees alike, ?_⟩,
    fun here there => grantRecipient_agrees, fun here suite missing => ⟨seal_refused missing, ?_⟩⟩
  · rintro record rfl keypair
    exact ⟨open_agrees alike keypair, rekey_agrees alike keypair⟩
  · rintro record rfl
    exact open_refused missing

end Agreement

end Blindplane.Core
