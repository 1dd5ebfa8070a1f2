import Blindplane.Crypto.Hpke

/-! # Recorded primitives

The primitives as a table of what they answered to the calls of some run. On the inputs
in the table they are the real functions; that the ciphers open what they sealed and that
key agreement is symmetric is decided from the table.
-/

namespace Blindplane.Crypto

open Lib Lib.Utf8 Lib.Checked

/-- One message under the payload cipher. -/
structure Sealing where
  suite : Suite
  key : Vector UInt8 32
  nonce : Bytes
  aad : Bytes
  plaintext : Bytes
  ciphertext : Bytes

/-- What the primitives answered to some calls: a scalar and a point for each product. -/
structure Recording where
  author : Vector UInt8 32
  digests : List (Bytes × Vector UInt8 32)
  signatures : List (Bytes × Vector UInt8 64)
  products : List ((Vector UInt8 32 × Vector UInt8 32) × Vector UInt8 32)
  sealings : List Sealing

namespace Recording

def sign (recording : Recording) (message : Bytes) : Vector UInt8 64 :=
  (recording.signatures.lookup message).getD (.replicate 64 0)

/-- The all-zero product stands for the inputs that were not recorded. -/
def product (recording : Recording) (scalar point : Vector UInt8 32) : Vector UInt8 32 :=
  (recording.products.lookup (scalar, point)).getD (.replicate 32 0)

def encrypt (recording : Recording) (suite : Suite) (key : Vector UInt8 32)
    (nonce aad plaintext : Bytes) : Except AeadError Bytes :=
  okOr ((recording.sealings.find? fun entry => entry.suite = suite ∧ entry.key = key ∧
    entry.nonce = nonce ∧ entry.aad = aad ∧ entry.plaintext = plaintext).map Sealing.ciphertext)
    .unsupported

def decrypt (recording : Recording) (suite : Suite) (key : Vector UInt8 32)
    (nonce aad ciphertext : Bytes) : Except AeadError Bytes :=
  okOr ((recording.sealings.find? fun entry => entry.suite = suite ∧ entry.key = key ∧
    entry.nonce = nonce ∧ entry.aad = aad ∧ entry.ciphertext = ciphertext).map Sealing.plaintext)
    .unauthenticated

/-- Primitives that answer as they were recorded. -/
@[reducible] def primitives (recording : Recording) : ClientPrimitives where
  sha256 message := (recording.digests.lookup message).getD (.replicate 32 0)
  verifyStrict key message signature :=
    if key = recording.author ∧ signature = recording.sign message then .ok ()
    else .error .verificationFailed
  PreparedVerifier := Unit
  publicKey _ := recording.author
  preparedVerifyStrict _ message signature :=
    if signature = recording.sign message then .ok () else .error .verificationFailed
  verifyingKey _ := recording.author
  sign _ := recording.sign
  x25519 := recording.product
  aeadSeal := recording.encrypt
  aeadOpen := recording.decrypt

/-- No two recorded messages have one ciphertext under one key, nonce and data. -/
def Decipherable (recording : Recording) : Prop :=
  ∀ a ∈ recording.sealings, ∀ b ∈ recording.sealings,
    a.suite = b.suite ∧ a.key = b.key ∧ a.nonce = b.nonce ∧ a.aad = b.aad ∧
      a.ciphertext = b.ciphertext → a.plaintext = b.plaintext

instance (recording : Recording) : Decidable recording.Decipherable :=
  inferInstanceAs (Decidable (∀ a ∈ recording.sealings, ∀ b ∈ recording.sealings, _ → _))

theorem opensSealed {recording : Recording} (decipherable : recording.Decipherable) (suite : Suite) :
    @Suite.OpensSealed recording.primitives suite := by
  intro key nonce aad plaintext ciphertext sealed
  change recording.encrypt suite key nonce aad plaintext = .ok ciphertext at sealed
  show recording.decrypt suite key nonce aad ciphertext = .ok plaintext
  simp only [encrypt, okOr_eq_ok, Option.map_eq_some_iff] at sealed
  obtain ⟨entry, found, rfl⟩ := sealed
  have member := List.mem_of_find?_eq_some found
  have named := List.find?_some found
  simp only [decide_eq_true_eq] at named
  obtain ⟨rfl, rfl, rfl, rfl, rfl⟩ := named
  have present : (recording.sealings.find? fun other => other.suite = entry.suite ∧
      other.key = entry.key ∧ other.nonce = entry.nonce ∧ other.aad = entry.aad ∧
      other.ciphertext = entry.ciphertext).isSome := by
    simp only [List.find?_isSome, decide_eq_true_eq]
    exact ⟨entry, member, rfl, rfl, rfl, rfl, rfl⟩
  obtain ⟨other, there⟩ := Option.isSome_iff_exists.mp present
  have same := List.find?_some there
  simp only [decide_eq_true_eq] at same
  simp only [decrypt, okOr_eq_ok, Option.map_eq_some_iff]
  exact ⟨other, there, decipherable other (List.mem_of_find?_eq_some there) entry member same⟩

/-- The recorded products of some secrets with each other's public keys agree, and there
    are no others. -/
structure Symmetric (recording : Recording) (parties : List StaticSecret) : Prop where
  scalars : ∀ entry ∈ recording.products, ∃ party ∈ parties, party.secret = entry.1.1
  points : ∀ entry ∈ recording.products, entry.1.2 ≠ .replicate 32 0
  products : ∀ a ∈ parties, ∀ b ∈ parties,
    recording.product a.secret (recording.product b.secret BASEPOINT) =
      recording.product b.secret (recording.product a.secret BASEPOINT)

theorem agreement {recording : Recording} {parties : List StaticSecret}
    (symmetric : recording.Symmetric parties) : @Agreement recording.primitives := by
  have stranger : ∀ party : StaticSecret, party ∉ parties → ∀ point,
      recording.product party.secret point = .replicate 32 0 := by
    intro party unknown point
    have missing : recording.products.lookup (party.secret, point) = none := by
      refine List.lookup_eq_none_iff.mpr fun entry member => ?_
      obtain ⟨other, known, named⟩ := symmetric.scalars entry member
      have apart : (party.secret, point) ≠ entry.1 := by
        rintro same
        have secret := named.trans (congrArg Prod.fst same).symm
        cases party
        cases other
        obtain rfl := secret
        exact unknown known
      simpa using apart
    rw [product, missing, Option.getD_none]
  have identity : ∀ scalar, recording.product scalar (.replicate 32 0) = .replicate 32 0 := by
    intro scalar
    have missing : recording.products.lookup (scalar, .replicate 32 0) = none := by
      refine List.lookup_eq_none_iff.mpr fun entry member => ?_
      have apart : (scalar, Vector.replicate 32 0) ≠ entry.1 := fun same =>
        symmetric.points entry member (congrArg Prod.snd same).symm
      simpa using apart
    rw [product, missing, Option.getD_none]
  intro ours theirs
  have products : recording.product ours.secret (recording.product theirs.secret BASEPOINT) =
      recording.product theirs.secret (recording.product ours.secret BASEPOINT) := by
    by_cases mine : ours ∈ parties
    · by_cases yours : theirs ∈ parties
      · exact symmetric.products ours mine theirs yours
      · rw [stranger theirs yours, stranger theirs yours, identity]
    · rw [stranger ours mine, stranger ours mine, identity]
  exact congrArg StaticSecret.keyMaterial products

/-- A table without ambiguities keeps the laws. -/
@[reducible] def lawful (recording : Recording) (decipherable : recording.Decipherable) {parties : List StaticSecret}
    (symmetric : recording.Symmetric parties) : LawfulPrimitives where
  toClientPrimitives := recording.primitives
  verifies _ _ := if_pos ⟨rfl, rfl⟩
  opensSealed := opensSealed decipherable
  agreement := agreement symmetric

end Recording

/-- Thirty-two bytes written as one number. -/
def word (n : Nat) : Vector UInt8 32 := ⟨(Bytes.be 32 n).toArray, by simp⟩

/-- The two digests of a MAC under a key of at most one block. -/
def macDigests (key message : Bytes) (inner tag : Vector UInt8 32) :
    List (Bytes × Vector UInt8 32) :=
  let block := key ++ List.replicate (64 - key.length) 0
  [(block.map (· ^^^ 0x36) ++ message, inner), (block.map (· ^^^ 0x5c) ++ inner.toList, tag)]

/-- The values one base-mode encapsulation goes through, with the inner digest of each
    of its MACs. -/
structure Encapsulation where
  encapsulatedKey : Vector UInt8 32
  dh : Vector UInt8 32
  eaePrkInner : Vector UInt8 32
  eaePrk : Vector UInt8 32
  sharedSecretInner : Vector UInt8 32
  sharedSecret : Vector UInt8 32
  pskIdHashInner : Vector UInt8 32
  pskIdHash : Vector UInt8 32
  infoHashInner : Vector UInt8 32
  infoHash : Vector UInt8 32
  secretInner : Vector UInt8 32
  secret : Vector UInt8 32
  keyInner : Vector UInt8 32
  key : Vector UInt8 32
  baseNonceInner : Vector UInt8 32
  baseNonce : Vector UInt8 32
  wrappedDek : Bytes

open Hpke in
/-- Everything hashed by an encapsulation to a key, under ChaCha20-Poly1305. -/
def Encapsulation.digests (values : Encapsulation) (recipient : Vector UInt8 32) (info : Bytes) :
    List (Bytes × Vector UInt8 32) :=
  let kem (label : String) : Bytes := VERSION_LABEL ++ kemSuiteId ++ asBytes label
  let hpke (label : String) : Bytes :=
    VERSION_LABEL ++ hpkeSuiteId .chaCha20Poly1305 ++ asBytes label
  let context := MODE_BASE :: values.pskIdHash.toList ++ values.infoHash.toList
  macDigests [] (kem "eae_prk" ++ values.dh.toList) values.eaePrkInner values.eaePrk ++
    macDigests values.eaePrk.toList
      (Bytes.u16 32 ++ kem "shared_secret" ++ values.encapsulatedKey.toList ++ recipient.toList ++ [1])
      values.sharedSecretInner values.sharedSecret ++
    macDigests [] (hpke "psk_id_hash") values.pskIdHashInner values.pskIdHash ++
    macDigests [] (hpke "info_hash" ++ info) values.infoHashInner values.infoHash ++
    macDigests values.sharedSecret.toList (hpke "secret") values.secretInner values.secret ++
    macDigests values.secret.toList (Bytes.u16 32 ++ hpke "key" ++ context ++ [1])
      values.keyInner values.key ++
    macDigests values.secret.toList (Bytes.u16 12 ++ hpke "base_nonce" ++ context ++ [1])
      values.baseNonceInner values.baseNonce

end Blindplane.Crypto
