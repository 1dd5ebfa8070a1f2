import Blindplane.Core.Access
import Blindplane.Core.Admission
import Blindplane.Crypto.Provided

/-! # Sealing and opening with the crate's own primitives

With the real ciphers, signatures and key agreement nothing is left to assume: a seal for
key pairs of the crate fails for its inputs, for randomness and for nothing else, and what
it made opens for each of its readers.
-/

namespace Blindplane.Core

open Lib Lib.Utf8 Lib.Checked Crypto Wire

section Draws

/-- The operating system refuses no request for random bytes. -/
def Answers (source : Entropy) : Prop := ∀ call n, (source call n).isSome = true

theorem Answers.fill {source : Entropy} (answers : Answers source) (error : CryptoError) (n : Nat) :
    ∃ bytes rest, Entropy.fill error n source = .ok (bytes, rest) ∧ Answers rest := by
  obtain ⟨bytes, drawn⟩ := Option.isSome_iff_exists.mp (answers 0 n)
  exact ⟨bytes, _, by rw [Entropy.fill, drawn], fun call n => answers (call + 1) n⟩

variable [cpu : Cpu]

attribute [local instance] Cpu.primitives

/-- The public key of a key pair of the crate. -/
def Held (recipient : Recipient) : Prop := ∃ keypair : RecipientKeypair, keypair.recipient = recipient

/-- An object secret can be wrapped for every key pair. -/
theorem Answers.wrapDek {source : Entropy} (answers : Answers source) {recipient : Recipient} (held : Held recipient)
    (objectSecret : Vector UInt8 DEK_LEN) (context : RecordContext) :
    ∃ envelope rest, wrapDek recipient objectSecret context source = .ok (envelope, rest) ∧ Answers rest := by
  obtain ⟨keypair, rfl⟩ := held
  obtain ⟨bytes, drawn⟩ := Option.isSome_iff_exists.mp (answers 0 32)
  obtain ⟨ciphertext, done, -⟩ := (sealWithEphemeral_cases .chaCha20Poly1305 keypair.secret ⟨bytes⟩ none
    (hpkeInfo context keypair.recipient) (hpkeAad context keypair.recipient) objectSecret.toList).1 ⟨rfl, rfl⟩
  rw [← keypair.derived] at done
  have sealed := generate_embed (fun ephemeral => Hpke.sealWithEphemeral .chaCha20Poly1305 ephemeral
    keypair.recipient.publicKey none (hpkeInfo context keypair.recipient) (hpkeAad context keypair.recipient)
    objectSecret.toList) source
  simp only [drawn, done] at sealed
  refine ⟨_, _, Process.bind_eq_ok.mpr ⟨_, _, Process.mapError_eq_ok.mpr sealed, Process.pure_eq_ok.mpr ⟨rfl, rfl⟩⟩,
    fun call n => answers (call + 1) n⟩

theorem Answers.envelopes {source : Entropy} (answers : Answers source) {recipients : List Recipient}
    (held : ∀ recipient ∈ recipients, Held recipient) (objectSecret : Vector UInt8 DEK_LEN) (context : RecordContext) :
    ∃ envelopes rest, Process.each (fun recipient => Core.wrapDek recipient objectSecret context) recipients source =
      .ok (envelopes, rest) := by
  induction recipients generalizing source with
  | nil => exact ⟨[], source, rfl⟩
  | cons recipient later ih =>
      obtain ⟨here, others⟩ := List.forall_mem_cons.mp held
      obtain ⟨envelope, rest, wrapped, more⟩ := answers.wrapDek here objectSecret context
      obtain ⟨envelopes, last, wrappedAll⟩ := ih more others
      exact ⟨envelope :: envelopes, last, Process.bind_eq_ok.mpr ⟨_, _, wrapped,
        Process.bind_eq_ok.mpr ⟨_, _, wrappedAll, Process.pure_eq_ok.mpr ⟨rfl, rfl⟩⟩⟩⟩

/-- Everything random in a seal can be drawn. -/
theorem Answers.draws {source : Entropy} (answers : Answers source) (context : RecordContext)
    {recipients : List Recipient} (held : ∀ recipient ∈ recipients, Held recipient) (suite : Suite) :
    ∃ rest objectSecret nonce envelopes, Draws context recipients suite source rest objectSecret nonce envelopes := by
  obtain ⟨objectSecret, later, first, more⟩ := answers.fill .randomness DEK_LEN
  obtain ⟨nonce, last, second, left⟩ := more.fill .randomness suite.nonceLen
  have sorted : ∀ recipient ∈ sortByScope Recipient.scope recipients, Held recipient :=
    fun recipient member => held recipient ((sortByScope_perm _ _).mem_iff.mp member)
  obtain ⟨envelopes, rest, wrapped⟩ := left.envelopes sorted objectSecret context
  exact ⟨rest, objectSecret, nonce, envelopes, later, last, first, second, wrapped⟩

end Draws

section Sealing

variable [cpu : Cpu] [Features]

attribute [local instance] Cpu.primitives

omit [Features] in
theorem sealsOn : SealsOn cpu.target := fun _ _ _ _ _ => rfl

omit [Features] in
theorem Author.signs (author : Author) : author.Verifies := @Author.verifies Cpu.lawful author

variable {author : Author} {context : RecordContext} {plaintext : Bytes} {recipients : List Recipient}
  {indexes : List BlindIndex} {suite : Suite} {source rest : Entropy} {record : SealedRecord}

/-- A seal for key pairs of the crate fails for its inputs only. -/
theorem exists_seal (available : suite.isAvailable cpu.target = true) (answers : Answers source)
    (held : ∀ recipient ∈ recipients, Held recipient)
    (admitted : preflight context plaintext.length recipients indexes = .ok ())
    (readers : (recipients.map Recipient.scope).Nodup) (definitions : (indexes.map BlindIndex.scope).Nodup) :
    ∃ record rest, Core.seal author context plaintext recipients indexes suite source = .ok (record, rest) := by
  obtain ⟨rest, objectSecret, nonce, envelopes, draws⟩ := answers.draws context held suite
  obtain ⟨⟨dataKey, commitmentKey⟩, derived⟩ := deriveObjectKeys_ok objectSecret context
  obtain ⟨ciphertext, encrypted⟩ : ∃ ciphertext,
      ClientPrimitives.aeadSeal suite dataKey nonce.toList (payloadAad suite context) plaintext = .ok ciphertext :=
    sealsOn.seals available nonce
  have within := firstRecord_within sealsOn author (preflight_eq_ok.mp admitted) readers definitions
    (commitKey commitmentKey suite context) encrypted draws.wraps
  have checked := validateOwn_ok within rfl fun _ => author.signs.firstRecord
  exact ⟨_, rest, seal_eq_ok.mpr ⟨⟨admitted, readers, definitions⟩, objectSecret, dataKey, commitmentKey, nonce,
    ciphertext, envelopes, draws, derived, encrypted, rfl, checked⟩⟩

/-- No two readers of a sealed record share a scope, so that each finds its own envelope. -/
theorem openValidated_of_sealed
    (done : Core.seal author context plaintext recipients indexes suite source = .ok (record, rest))
    {keypair : RecipientKeypair} (reads : keypair.recipient ∈ recipients) :
    openValidated record keypair = .ok plaintext := by
  obtain ⟨-, -, -, -, objectSecret, shares, dataKey, commitmentKey, derived, committed, encrypted⟩ := seal_ok done
  have scopes := (seal_eq_ok.mp done).1.2.1
  obtain ⟨envelope, here, wraps⟩ := shares.every _ reads
  have present : (record.recipient keypair.recipient.recipientId keypair.recipient.keyEpoch
      keypair.recipient.recipientKeyId).isSome := by
    simp only [SealedRecord.recipient, List.find?_isSome, decide_eq_true_eq]
    exact ⟨envelope, here, wraps.recipientId, wraps.keyEpoch, wraps.recipientKeyId⟩
  obtain ⟨found, lookup⟩ := Option.isSome_iff_exists.mp present
  obtain ⟨there, named⟩ := recipient_eq_some lookup
  obtain ⟨other, member, otherWraps⟩ := shares.only found there
  have address := otherWraps.address.symm.trans named
  simp only [Recipient.address, Prod.mk.injEq] at address
  have same : other = keypair.recipient :=
    List.inj_on_of_nodup_map scopes member reads (Prod.ext address.1 address.2.1)
  have unwrapped := unwrapDek_of_wraps (@hpkeOpensSealed Cpu.lawful) (same ▸ otherWraps)
  simp only [openValidated, bind_eq_ok, okOr_eq_ok, rejectIf_eq_ok, mapError_eq_ok, not_not]
  exact ⟨found, lookup, objectSecret, unwrapped, (dataKey, commitmentKey), derived, (), committed.symm,
    Cpu.opensSealed record.suite _ _ _ _ _ encrypted⟩

theorem openValidated_of_stranger
    (done : Core.seal author context plaintext recipients indexes suite source = .ok (record, rest))
    {keypair : RecipientKeypair} (stranger : keypair.recipient.address ∉ recipients.map Recipient.address) :
    openValidated record keypair = .error .noEnvelopeForRecipient := by
  obtain ⟨-, -, -, -, objectSecret, shares, -⟩ := seal_ok done
  exact openValidated_of_not_reads shares stranger

theorem open_sealed (done : Core.seal author context plaintext recipients indexes suite source = .ok (record, rest))
    (keypair : RecipientKeypair) : Core.open record keypair author.publicKey = openValidated record keypair := by
  rw [Core.open, (seal_ok done).issued.validates author.signs]
  rfl

/-- Sealing for key pairs of the crate with a suite that the CPU runs, where the operating
    system answers: it succeeds exactly when preflight passes and no scope repeats; and what
    was sealed crosses the wire, opens for each of its readers, and has no envelope for a
    key pair of another address. -/
theorem sealed_opens (author : Author) (context : RecordContext) (plaintext : Bytes) (readers : List RecipientKeypair)
    (indexes : List BlindIndex) (suite : Suite) (available : suite.isAvailable cpu.target = true) (source : Entropy)
    (answers : Answers source) :
    let recipients := readers.map RecipientKeypair.recipient
    let sealing := Core.seal author context plaintext recipients indexes suite source
    ((∃ record rest, sealing = .ok (record, rest)) ↔ preflight context plaintext.length recipients indexes = .ok () ∧
      (recipients.map Recipient.scope).Nodup ∧ (indexes.map BlindIndex.scope).Nodup) ∧
    ∀ record rest, sealing = .ok (record, rest) →
      SealedRecord.decode record.encode (policyFor author.publicKey) = .ok record ∧
      (∀ reader ∈ readers, Core.open record reader author.publicKey = .ok plaintext) ∧
      ∀ stranger : RecipientKeypair, stranger.recipient.address ∉ recipients.map Recipient.address →
        Core.open record stranger author.publicKey = .error .noEnvelopeForRecipient := by
  intro recipients sealing
  have held : ∀ recipient ∈ recipients, Held recipient := by
    intro recipient member
    obtain ⟨keypair, -, same⟩ := List.mem_map.mp member
    exact ⟨keypair, same⟩
  refine ⟨⟨?_, ?_⟩, ?_⟩
  · rintro ⟨record, rest, done⟩
    exact (seal_eq_ok.mp done).1
  · rintro ⟨admitted, scopes, definitions⟩
    exact exists_seal available answers held admitted scopes definitions
  · intro record rest done
    refine ⟨(seal_ok done).issued.decodes author.signs, fun reader member => ?_, fun stranger outside => ?_⟩
    · rw [open_sealed done, openValidated_of_sealed done (List.mem_map_of_mem member)]
    · rw [open_sealed done, openValidated_of_stranger done outside]

end Sealing

section SampleAssembled

/-- A build without acceleration. -/
@[reducible] def portableCpu : Cpu where
  target := .portable
  sha256Hardware := false
  sha512Hardware := false

attribute [local instance] portableCpu Cpu.primitives defaultFeatures

def carol : RecipientKeypair := .assemble "carol" 1 { secret := .replicate 32 1 } (by decide)

def carolOrigin : Origin where
  context := sampleContext
  plaintext := asBytes "hi"
  recipients := [carol.recipient]
  indexes := []
  suite := .chaCha20Poly1305

theorem carol_admitted :
    preflight sampleContext (asBytes "hi").length [carol.recipient] [] = .ok () := by
  have admitted : Admitted (policyFor zeroHash) sampleContext (asBytes "hi").length [carol.recipient] [] :=
    { context := contextAdmitted_iff.mp (by decide)
      payload := by decide
      recipientsMin := Nat.one_pos
      recipientsMax := by decide
      recipients := List.forall_mem_singleton.mpr ⟨⟨by decide, by decide⟩, by decide⟩
      indexesMax := by decide
      indexes := List.forall_mem_nil _ }
  exact preflight_eq_ok.mpr admitted

/-- Two bytes, sealed for Carol. -/
theorem sealed_opens_carol :
    ∃ record rest, Core.seal { signingKey := .replicate 32 7 } sampleContext (asBytes "hi") [carol.recipient] []
      .chaCha20Poly1305 (fun _ n => some (.replicate n 3)) = .ok (record, rest) ∧
        Core.open record carol (Author.mk (.replicate 32 7)).publicKey = .ok (asBytes "hi") := by
  obtain ⟨succeeds, opens⟩ := sealed_opens { signingKey := .replicate 32 7 } sampleContext (asBytes "hi") [carol] []
    .chaCha20Poly1305 rfl (fun _ n => some (.replicate n 3)) fun _ _ => rfl
  obtain ⟨record, rest, done⟩ := succeeds.mpr ⟨carol_admitted, List.nodup_singleton _, List.nodup_nil⟩
  exact ⟨record, rest, done, (opens record rest done).2.1 carol List.mem_cons_self⟩

end SampleAssembled

end Blindplane.Core
