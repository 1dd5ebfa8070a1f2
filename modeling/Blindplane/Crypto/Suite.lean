import Blindplane.Lib.Bytes

/-! # Payload suites and the primitives of the keyless crates

The record layer names its cipher suites by value and calls two primitives, a
hash and a signature check. The record layer's results hold for any functions in
their place, so they are carried as a class; what a result needs of them is said
in its hypotheses.
-/

namespace Blindplane.Crypto

open Lib

/-- Tag length shared by every suite. -/
def TAG_LEN : Nat := 16

inductive AeadError where
  | unauthenticated
  | unsupported
  | messageTooLong
  deriving DecidableEq, Repr

/-- The AEAD suites the wire format can name. -/
inductive Suite where
  | aes256Gcm
  | xChaCha20Poly1305
  | chaCha20Poly1305
  deriving DecidableEq, Repr

namespace Suite

/-- Nonce length in bytes. -/
def nonceLen : Suite → Nat
  | .aes256Gcm | .chaCha20Poly1305 => 12
  | .xChaCha20Poly1305 => 24

/-- Stable one-byte code used in signed transcripts. -/
def code : Suite → UInt8
  | .aes256Gcm => 1
  | .xChaCha20Poly1305 => 2
  | .chaCha20Poly1305 => 3

theorem code_inj {a b : Suite} : a.code = b.code ↔ a = b := by
  cases a <;> cases b <;> decide

theorem nonceLen_le (suite : Suite) : suite.nonceLen ≤ 24 := by
  cases suite <;> decide

end Suite

inductive SignatureError where
  | invalidPublicKey
  | smallOrderPublicKey
  | invalidSignatureR
  | nonCanonicalSignatureS
  | verificationFailed
  deriving DecidableEq, Repr

/-- SHA-256, the strict Ed25519 check, and the check against a key prepared once. -/
class Primitives where
  sha256 : Bytes → Vector UInt8 32
  verifyStrict : Vector UInt8 32 → Bytes → Vector UInt8 64 → Except SignatureError Unit
  PreparedVerifier : Type
  publicKey : PreparedVerifier → Vector UInt8 32
  preparedVerifyStrict : PreparedVerifier → Bytes → Vector UInt8 64 → Except SignatureError Unit

/-- Primitives given by recorded values: the digests of some messages, and the
    signatures of one author that verify. -/
@[reducible] def Primitives.recorded (author : Vector UInt8 32)
    (digests : List (Bytes × Vector UInt8 32)) (signatures : List (Bytes × Vector UInt8 64)) :
    Primitives where
  sha256 message := (digests.lookup message).getD (.replicate 32 0)
  verifyStrict key message signature :=
    if key = author ∧ (message, signature) ∈ signatures then .ok () else .error .verificationFailed
  PreparedVerifier := Unit
  publicKey _ := author
  preparedVerifyStrict _ message signature :=
    if (message, signature) ∈ signatures then .ok () else .error .verificationFailed

theorem Primitives.recorded_sha256 {author : Vector UInt8 32}
    {digests : List (Bytes × Vector UInt8 32)} {signatures : List (Bytes × Vector UInt8 64)}
    {message : Bytes} {digest : Vector UInt8 32} (found : digests.lookup message = some digest) :
    @Primitives.sha256 (.recorded author digests signatures) message = digest := by
  show (digests.lookup message).getD _ = digest
  rw [found, Option.getD_some]

end Blindplane.Crypto
