import Blindplane.Crypto.KeyAgreement
import Blindplane.Crypto.Encapsulation
import Blindplane.Crypto.Aead.Suites
import Blindplane.Crypto.Edwards.Keys
import Blindplane.Crypto.Sha2.Hash

/-! # The primitives that the crate provides

Everything a client calls, put together from the crate's own routines, on any CPU. What
protocols rely on holds of these functions and is not assumed: a signature made under a
seed verifies, two secrets agree, every suite opens what it sealed.
-/

namespace Blindplane.Crypto

open Lib Lib.Arithmetic Lib.Checked Curve25519

/-- What a build finds on the CPU that it runs on. -/
class Cpu where
  target : Target
  sha256Hardware : Bool
  sha512Hardware : Bool

variable [cpu : Cpu]

section Digests

/-- `Sha256::digest`. -/
def sha256 (message : Bytes) : Vector UInt8 32 := fixed 32 ((Sha2.Sha256.digest cpu.sha256Hardware message).getD [])

/-- `Sha512::digest`. -/
def sha512 (message : Bytes) : Vector UInt8 64 := fixed 64 ((Sha2.Sha512.digest cpu.sha512Hardware message).getD [])

omit cpu in
theorem Sha2.State.bytes_length {w : Nat} (s : Sha2.State w) : s.bytes.length = 8 * (w / 8) := by
  simp only [Sha2.State.bytes, Sha2.State.words, List.map_cons, List.map_nil, List.flatten_cons, List.flatten_nil,
    List.length_append, Bytes.be_length, List.length_nil]
  omega

theorem toList_sha256 (message : Bytes) : (sha256 message).toList = Sha2.sha256Blocks.digest message := by
  have digest := Sha2.Sha256.finalize_eq cpu.sha256Hardware [message]
  rw [List.foldl_cons, List.foldl_nil, List.flatten_singleton] at digest
  rw [sha256, Sha2.Sha256.digest, digest, Option.getD_some]
  exact fixed_toList (Sha2.State.bytes_length _)

theorem toList_sha512 (message : Bytes) : (sha512 message).toList = Sha2.sha512Blocks.digest message := by
  have digest := Sha2.Sha512.finalize_eq cpu.sha512Hardware [message]
  rw [List.foldl_cons, List.foldl_nil, List.flatten_singleton] at digest
  rw [sha512, Sha2.Sha512.digest, digest, Option.getD_some]
  exact fixed_toList (Sha2.State.bytes_length _)

end Digests

namespace Cpu

/-- The crate's primitives on a CPU. -/
@[reducible] def primitives : ClientPrimitives where
  sha256 := Crypto.sha256
  verifyStrict := Crypto.verifyStrict sha512
  PreparedVerifier := Crypto.PreparedVerifier
  publicKey := Crypto.PreparedVerifier.publicKey
  preparedVerifyStrict := Crypto.PreparedVerifier.verifyStrict sha512
  verifyingKey seed := (SigningKey.fromSeed sha512 seed).verifyingKey
  sign seed message := (SigningKey.fromSeed sha512 seed).sign sha512 message
  x25519 scalar point := (Crypto.x25519 scalar point : Id (Vector UInt8 32))
  aeadSeal suite key nonce aad plaintext :=
    (suite.«seal» cpu.target key nonce aad plaintext : Id (Except AeadError Bytes))
  aeadOpen suite key nonce aad ciphertext :=
    (suite.«open» cpu.target key nonce aad ciphertext : Id (Except AeadError Bytes))

attribute [local instance] primitives

/-- No public key of the crate is ever refused. -/
theorem diffieHellman_publicKey (ours theirs : StaticSecret) :
    ours.diffieHellman theirs.publicKey =
      some (Crypto.x25519 ours.secret (Crypto.x25519 theirs.secret BASEPOINT : Id (Vector UInt8 32)) :
        Id (Vector UInt8 32)) :=
  if_neg (shared_ne_zero ours.secret theirs.secret)

theorem agreement : Agreement := by
  intro ours theirs
  rw [diffieHellman_publicKey, diffieHellman_publicKey, shared_comm]

theorem aeadSeal_eq {suite : Suite} {key : Vector UInt8 32} {nonce aad plaintext : Bytes} :
    ClientPrimitives.aeadSeal suite key nonce aad plaintext =
      if nonce.length = suite.nonceLen ∧ suite.isAvailable cpu.target then
        .ok (suite.encrypt key nonce plaintext ++ suite.tagOf key nonce aad (suite.encrypt key nonce plaintext))
      else .error .unsupported :=
  suite.seal_eq cpu.target key nonce aad plaintext Id

theorem aeadSeal_eq_ok {suite : Suite} {key : Vector UInt8 32} {nonce aad plaintext ciphertext : Bytes} :
    ClientPrimitives.aeadSeal suite key nonce aad plaintext = .ok ciphertext ↔
      (nonce.length = suite.nonceLen ∧ suite.isAvailable cpu.target = true) ∧
        ciphertext =
          suite.encrypt key nonce plaintext ++ suite.tagOf key nonce aad (suite.encrypt key nonce plaintext) := by
  rw [aeadSeal_eq]
  split
  · next able => rw [Except.ok.injEq, and_iff_right able, eq_comm]
  · next unable => exact iff_of_false nofun fun both => unable both.1

/-- The tag is that of the ciphertext, and the stream cancels. -/
theorem opensSealed (suite : Suite) : suite.OpensSealed := by
  intro key nonce aad plaintext ciphertext sealed
  obtain ⟨⟨length, available⟩, rfl⟩ := aeadSeal_eq_ok.mp sealed
  obtain ⟨body, hbody⟩ : ∃ body, body = suite.encrypt key nonce plaintext := ⟨_, rfl⟩
  obtain ⟨tag, htag⟩ : ∃ tag, tag = suite.tagOf key nonce aad body := ⟨_, rfl⟩
  have long : tag.length = TAG_LEN := by rw [htag, Suite.tagOf_length]
  have split : (body ++ tag).length - TAG_LEN = body.length := by rw [List.length_append, long, Nat.add_sub_cancel]
  have enough : ¬ ((body ++ tag).length < TAG_LEN ∨ nonce.length ≠ suite.nonceLen) := by
    rw [List.length_append, long]
    omega
  have opening : ClientPrimitives.aeadOpen suite key nonce aad (body ++ tag) = _ :=
    suite.open_eq cpu.target key nonce aad (body ++ tag) Id
  rw [← hbody, ← htag, opening, split, List.take_left, List.drop_left, if_neg enough, if_neg (not_not.mpr available),
    if_pos htag.symm, hbody, Suite.encrypt_encrypt]
  rfl

/-- What is signed under a seed verifies under its public key. -/
theorem verifies (seed : Vector UInt8 32) (message : Bytes) :
    Primitives.verifyStrict (ClientPrimitives.verifyingKey seed) message (ClientPrimitives.sign seed message) = .ok () :=
  verifyStrict_eq_ok_of_signed sha512 seed message

/-- What protocols rely on holds of the crate's primitives. -/
@[reducible] def lawful : LawfulPrimitives where
  toClientPrimitives := primitives
  verifies := verifies
  opensSealed := opensSealed
  agreement := agreement

end Cpu

section Encapsulation

attribute [local instance] Cpu.primitives

open Hpke

variable (suite : Suite) (secret ephemeral : StaticSecret) (sender : Option StaticSecret)
  (info associatedData plaintext : Bytes)

/-- Neither side is refused a Diffie-Hellman value. -/
theorem exists_senderTranscript :
    ∃ transcript, senderTranscript ephemeral secret.publicKey sender = .ok transcript := by
  rw [senderTranscript, Cpu.diffieHellman_publicKey, okOr_some_bind]
  cases sender with
  | none => exact ⟨_, rfl⟩
  | some sender =>
      rw [bindSender, Cpu.diffieHellman_publicKey, okOr_some_bind]
      exact ⟨_, rfl⟩

/-- The key derivation of HPKE asks for two blocks at most. -/
theorem exists_transcriptSchedule (transcript : Bytes × Bytes × UInt8) :
    ∃ schedule, transcriptSchedule suite info transcript = .ok schedule :=
  ⟨_, rfl⟩

/-- A suite that the CPU can run, with the nonce that the key schedule derives. -/
def Encapsulates (suite : Suite) : Prop := suite.nonceLen = NONCE_LEN ∧ suite.isAvailable cpu.target = true

instance : Decidable (Encapsulates suite) := inferInstanceAs (Decidable (_ ∧ _))

/-- Sealing to a public key of the crate fails for the suite only, and what it seals its
    owner opens. -/
theorem sealWithEphemeral_cases :
    (Encapsulates suite → ∃ ciphertext,
      sealWithEphemeral suite ephemeral secret.publicKey sender info associatedData plaintext =
        .ok (ephemeral.publicKey.toList, ciphertext) ∧
      ciphertext.length = plaintext.length + TAG_LEN ∧
      openInner suite secret ephemeral.publicKey.toList (sender.map StaticSecret.publicKey) info associatedData
        ciphertext = .ok plaintext) ∧
    (¬ Encapsulates suite →
      sealWithEphemeral suite ephemeral secret.publicKey sender info associatedData plaintext =
        .error (.aead .unsupported)) := by
  obtain ⟨transcript, fed⟩ := exists_senderTranscript secret ephemeral sender
  obtain ⟨schedule, scheduled⟩ := exists_transcriptSchedule suite info transcript
  have sealing : sealWithEphemeral suite ephemeral secret.publicKey sender info associatedData plaintext = (do
      let ciphertext ← (ClientPrimitives.aeadSeal suite schedule.key schedule.baseNonce.toList associatedData
        plaintext).mapError HpkeError.aead
      return (ephemeral.publicKey.toList, ciphertext)) := by
    rw [sealWithEphemeral_eq, fed, ok_bind, scheduled, ok_bind]
  have nonce : schedule.baseNonce.toList.length = NONCE_LEN := Vector.length_toList
  constructor
  · rintro ⟨length, available⟩
    obtain ⟨ciphertext, encrypted⟩ : ∃ ciphertext, ClientPrimitives.aeadSeal suite schedule.key
        schedule.baseNonce.toList associatedData plaintext = .ok ciphertext :=
      ⟨_, Cpu.aeadSeal_eq_ok.mpr ⟨⟨nonce.trans length.symm, available⟩, rfl⟩⟩
    rw [encrypted, mapError_ok, ok_bind] at sealing
    refine ⟨ciphertext, sealing, ?_, openInner_sealed Cpu.agreement (Cpu.opensSealed suite) sealing⟩
    rw [(Cpu.aeadSeal_eq_ok.mp encrypted).2, List.length_append, Suite.tagOf_length, Suite.encrypt, xorStream_length]
  · intro unable
    have unsupported : ClientPrimitives.aeadSeal suite schedule.key schedule.baseNonce.toList associatedData plaintext =
        .error .unsupported := by
      rw [Cpu.aeadSeal_eq, nonce, if_neg fun both => unable ⟨both.1.symm, both.2⟩]
    rw [unsupported, mapError_error, error_bind] at sealing
    exact sealing

omit cpu in
/-- A secret is drawn, and what follows draws no more. -/
theorem generate_embed {α : Type} (next : StaticSecret → Except HpkeError α) (source : Entropy) :
    (StaticSecret.generate HpkeError.keyDerivation >>= fun secret => Process.embed (next secret)) source =
      match source 0 32 with
      | none => .error .keyDerivation
      | some bytes => (next ⟨bytes⟩).map (·, fun call => source (call + 1)) := by
  simp only [StaticSecret.generate, bind_assoc, pure_bind]
  show (Entropy.fill HpkeError.keyDerivation 32 source >>= fun drawn => Process.embed (next ⟨drawn.1⟩) drawn.2) = _
  rw [Entropy.fill]
  cases source 0 32 <;> rfl

/-- HPKE in either mode, to a public key of the crate: it fails where the operating system
    gives no randomness or the CPU does not run the suite with a 12-byte nonce, and nowhere
    else; and the owner of the key opens what was sealed. -/
theorem encapsulation_exact (source : Entropy) :
    let sealing := match sender with
      | none => Hpke.seal suite secret.publicKey info associatedData plaintext
      | some sender => authSeal suite sender secret.publicKey info associatedData plaintext
    let opening (enc ciphertext : Bytes) := match sender with
      | none => Hpke.open suite secret enc info associatedData ciphertext
      | some sender => authOpen suite secret sender.publicKey enc info associatedData ciphertext
    match source 0 32 with
    | none => sealing source = .error .keyDerivation
    | some bytes =>
        if Encapsulates suite then
          ∃ enc ciphertext, sealing source = .ok ((enc, ciphertext), fun call => source (call + 1)) ∧
            enc = (StaticSecret.mk bytes).publicKey.toList ∧ ciphertext.length = plaintext.length + TAG_LEN ∧
            opening enc ciphertext = .ok plaintext
        else sealing source = .error (.aead .unsupported) := by
  intro sealing opening
  have draws : sealing source = match source 0 32 with
      | none => .error .keyDerivation
      | some bytes =>
          (sealWithEphemeral suite ⟨bytes⟩ secret.publicKey sender info associatedData plaintext).map
            (·, fun call => source (call + 1)) := by
    cases sender with
    | none => exact generate_embed _ source
    | some sender => exact generate_embed _ source
  have opens : ∀ enc ciphertext, opening enc ciphertext =
      openInner suite secret enc (sender.map StaticSecret.publicKey) info associatedData ciphertext := by
    cases sender <;> exact fun _ _ => rfl
  rw [draws]
  cases source 0 32 with
  | none => rfl
  | some bytes =>
      obtain ⟨able, unable⟩ :=
        sealWithEphemeral_cases suite secret ⟨bytes⟩ sender info associatedData plaintext
      dsimp only
      split
      · next encapsulates =>
        obtain ⟨ciphertext, done, length, opened⟩ := able encapsulates
        exact ⟨_, ciphertext, by rw [done]; rfl, rfl, length, (opens _ _).trans opened⟩
      · next refuses =>
        rw [unable refuses]
        rfl

end Encapsulation

end Blindplane.Crypto
