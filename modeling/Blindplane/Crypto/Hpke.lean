import Blindplane.Crypto.Client
import Blindplane.Crypto.Kdf
import Blindplane.Lib.Checked
import Blindplane.Lib.Utf8

/-! # Hybrid public-key encryption, base and authenticated modes

DHKEM over X25519 with HKDF-SHA-256, one message for each encapsulation. Both sides
run the same key derivation, so what one seals the other opens as soon as they agree
on the Diffie-Hellman values.
-/

namespace Blindplane.Crypto.Hpke

open Lib Lib.Utf8 Lib.Checked

inductive HpkeError where
  | invalidPeerKey
  | keyDerivation
  | aead (error : AeadError)
  deriving DecidableEq, Repr

def VERSION_LABEL : Bytes := asBytes "HPKE-v1"

/-- DHKEM(X25519, HKDF-SHA256). -/
def KEM_ID : UInt16 := 0x0020

/-- HKDF-SHA256. -/
def KDF_ID : UInt16 := 0x0001

def MODE_BASE : UInt8 := 0x00

def MODE_AUTH : UInt8 := 0x02

def ENCAPSULATED_KEY_LEN : Nat := 32

def NONCE_LEN : Nat := 12

def aeadId : Suite → UInt16
  | .aes256Gcm => 0x0002
  | .chaCha20Poly1305 | .xChaCha20Poly1305 => 0x0003

def kemSuiteId : Bytes := asBytes "KEM" ++ Bytes.u16 KEM_ID

def hpkeSuiteId (suite : Suite) : Bytes :=
  asBytes "HPKE" ++ Bytes.u16 KEM_ID ++ Bytes.u16 KDF_ID ++ Bytes.u16 (aeadId suite)

/-- The AEAD key and nonce a sender and receiver both arrive at. -/
structure KeySchedule where
  key : Vector UInt8 32
  baseNonce : Vector UInt8 NONCE_LEN

section Kdf

variable [Primitives]

def labeledExtract (salt suiteId label ikm : Bytes) : Vector UInt8 32 :=
  hkdfExtract salt (VERSION_LABEL ++ suiteId ++ label ++ ikm)

def labeledExpand {n : Nat} (prk : Vector UInt8 32) (suiteId label info : Bytes)
    (out : Vector UInt8 n) : Except HpkeError (Vector UInt8 n) :=
  let labeledInfo := Bytes.u16 (UInt16.ofNat n) ++ VERSION_LABEL ++ suiteId ++ label ++ info
  let (ok, out) := hkdfExpand prk labeledInfo out
  if ok then .ok out else .error .keyDerivation

/-- `ExtractAndExpand` from the DHKEM construction. -/
def extractAndExpand (dh kemContext : Bytes) : Except HpkeError (Vector UInt8 32) :=
  let eaePrk := labeledExtract [] kemSuiteId (asBytes "eae_prk") dh
  labeledExpand eaePrk kemSuiteId (asBytes "shared_secret") kemContext (.replicate 32 0)

def keySchedule (suite : Suite) (mode : UInt8) (sharedSecret : Vector UInt8 32) (info : Bytes) :
    Except HpkeError KeySchedule := do
  let suiteId := hpkeSuiteId suite
  let pskIdHash := labeledExtract [] suiteId (asBytes "psk_id_hash") []
  let infoHash := labeledExtract [] suiteId (asBytes "info_hash") info
  let context := [mode] ++ pskIdHash.toList ++ infoHash.toList
  let secret := labeledExtract sharedSecret.toList suiteId (asBytes "secret") []
  let key ← labeledExpand secret suiteId (asBytes "key") context (.replicate 32 0)
  let baseNonce ← labeledExpand secret suiteId (asBytes "base_nonce") context (.replicate NONCE_LEN 0)
  return { key, baseNonce }

end Kdf

/-- The mode, and what an authenticated sender adds to the key agreement: its own
    Diffie-Hellman value and its public key. -/
def bindSender {S : Type} (sender : Option S) (diffieHellman : S → Option (Vector UInt8 32))
    (publicKey : S → Vector UInt8 32) (dh kemContext : Bytes) :
    Except HpkeError (Bytes × Bytes × UInt8) :=
  match sender with
  | some sender => do
      let staticDh ← okOr (diffieHellman sender) .invalidPeerKey
      return (dh ++ staticDh.toList, kemContext ++ (publicKey sender).toList, MODE_AUTH)
  | none => .ok (dh, kemContext, MODE_BASE)

variable [ClientPrimitives]

def sealWithEphemeral (suite : Suite) (ephemeral : StaticSecret) (recipientPublicKey : Vector UInt8 32)
    (senderSecret : Option StaticSecret) (info associatedData plaintext : Bytes) :
    Except HpkeError (Bytes × Bytes) := do
  let enc := ephemeral.publicKey
  let ephemeralDh ← okOr (ephemeral.diffieHellman recipientPublicKey) .invalidPeerKey
  let kemContext := enc.toList ++ recipientPublicKey.toList
  let (dh, kemContext, mode) ← bindSender senderSecret (·.diffieHellman recipientPublicKey)
    StaticSecret.publicKey ephemeralDh.toList kemContext
  let shared ← extractAndExpand dh kemContext
  let schedule ← keySchedule suite mode shared info
  let ciphertext ← (ClientPrimitives.aeadSeal suite schedule.key schedule.baseNonce.toList
    associatedData plaintext).mapError .aead
  return (enc.toList, ciphertext)

def openInner (suite : Suite) (recipientSecret : StaticSecret) (encapsulatedKey : Bytes)
    (senderPublicKey : Option (Vector UInt8 32)) (info associatedData ciphertext : Bytes) :
    Except HpkeError Bytes := do
  let enc ← okOr (Bytes.asArray ENCAPSULATED_KEY_LEN encapsulatedKey) .invalidPeerKey
  let ephemeralDh ← okOr (recipientSecret.diffieHellman enc) .invalidPeerKey
  let kemContext := enc.toList ++ recipientSecret.publicKey.toList
  let (dh, kemContext, mode) ← bindSender senderPublicKey recipientSecret.diffieHellman id
    ephemeralDh.toList kemContext
  let shared ← extractAndExpand dh kemContext
  let schedule ← keySchedule suite mode shared info
  (ClientPrimitives.aeadOpen suite schedule.key schedule.baseNonce.toList
    associatedData ciphertext).mapError .aead

/-- Encapsulate to a recipient public key (`mode_base`). -/
def «seal» (suite : Suite) (recipientPublicKey : Vector UInt8 32)
    (info associatedData plaintext : Bytes) : Process Entropy HpkeError (Bytes × Bytes) := do
  let ephemeral ← StaticSecret.generate .keyDerivation
  Process.embed
    (sealWithEphemeral suite ephemeral recipientPublicKey none info associatedData plaintext)

/-- Encapsulate to a recipient while authenticating the sender (`mode_auth`). -/
def authSeal (suite : Suite) (senderSecret : StaticSecret) (recipientPublicKey : Vector UInt8 32)
    (info associatedData plaintext : Bytes) : Process Entropy HpkeError (Bytes × Bytes) := do
  let ephemeral ← StaticSecret.generate .keyDerivation
  Process.embed
    (sealWithEphemeral suite ephemeral recipientPublicKey (some senderSecret) info associatedData plaintext)

/-- Decapsulate and open a `mode_base` payload. -/
def «open» (suite : Suite) (recipientSecret : StaticSecret) (encapsulatedKey info associatedData
    ciphertext : Bytes) : Except HpkeError Bytes :=
  openInner suite recipientSecret encapsulatedKey none info associatedData ciphertext

/-- Decapsulate and open a `mode_auth` payload, verifying the sender's static key. -/
def authOpen (suite : Suite) (recipientSecret : StaticSecret) (senderPublicKey : Vector UInt8 32)
    (encapsulatedKey info associatedData ciphertext : Bytes) : Except HpkeError Bytes :=
  openInner suite recipientSecret encapsulatedKey (some senderPublicKey) info associatedData ciphertext

/-- What is sealed to a key under some information and associated data opens with the
    secret of that key under the same. -/
def OpensSealed (suite : Suite) : Prop :=
  ∀ (secret ephemeral : StaticSecret) (info associatedData plaintext enc ciphertext : Bytes),
    sealWithEphemeral suite ephemeral secret.publicKey none info associatedData plaintext =
        .ok (enc, ciphertext) →
      Hpke.open suite secret enc info associatedData ciphertext = .ok plaintext

/-- A sender's key agreement looks the same from the receiver's side. -/
theorem bindSender_map (agreement : Agreement) (secret : StaticSecret) (sender : Option StaticSecret)
    (dh kemContext : Bytes) :
    bindSender (sender.map StaticSecret.publicKey) secret.diffieHellman id dh kemContext =
      bindSender sender (·.diffieHellman secret.publicKey) StaticSecret.publicKey dh kemContext := by
  cases sender with
  | none => rfl
  | some sender => simp only [bindSender, Option.map_some, agreement secret sender, id_eq]

/-- The receiver computes the sender's Diffie-Hellman values from the other side, and
    everything after them from the same inputs. -/
theorem openInner_sealed {suite : Suite} (agreement : Agreement) (opens : suite.OpensSealed)
    {ephemeral secret : StaticSecret} {sender : Option StaticSecret}
    {info associatedData plaintext enc ciphertext : Bytes}
    (done : sealWithEphemeral suite ephemeral secret.publicKey sender info associatedData plaintext =
      .ok (enc, ciphertext)) :
    openInner suite secret enc (sender.map StaticSecret.publicKey) info associatedData ciphertext =
      .ok plaintext := by
  simp only [sealWithEphemeral, bind_eq_ok, okOr_eq_ok, pure_eq_ok, mapError_eq_ok,
    Prod.mk.injEq] at done
  obtain ⟨ephemeralDh, agreed, inputs, bound, shared, derived, schedule, scheduled, sealed,
    encrypted, rfl, rfl⟩ := done
  have received : Bytes.asArray ENCAPSULATED_KEY_LEN ephemeral.publicKey.toList =
      some ephemeral.publicKey := Bytes.asArray_eq_some.mpr rfl
  rw [agreement] at agreed
  rw [← bindSender_map agreement] at bound
  simp only [openInner, bind_eq_ok, okOr_eq_ok, mapError_eq_ok]
  exact ⟨_, received, ephemeralDh, agreed, inputs, bound, shared, derived, schedule, scheduled,
    opens _ _ _ _ _ encrypted⟩

theorem opensSealed {suite : Suite} (agreement : Agreement) (opens : suite.OpensSealed) :
    OpensSealed suite :=
  fun _ _ _ _ _ _ _ done => openInner_sealed agreement opens done

end Blindplane.Crypto.Hpke
