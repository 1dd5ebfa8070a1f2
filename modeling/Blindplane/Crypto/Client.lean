import Blindplane.Crypto.Suite
import Blindplane.Lib.Process

/-! # The primitives of the client side

A client signs, agrees on keys and runs the payload ciphers, and draws fresh bytes
from the operating system. The answers it will be given form a stream; each draw
takes the next one, and any of them may be a refusal.
-/

namespace Blindplane.Crypto

open Lib

/-- Ed25519 keys and signatures from a seed, the X25519 function, and the AEAD of each
    suite on this machine. -/
class ClientPrimitives extends Primitives where
  verifyingKey : Vector UInt8 32 → Vector UInt8 32
  sign : Vector UInt8 32 → Bytes → Vector UInt8 64
  x25519 : Vector UInt8 32 → Vector UInt8 32 → Vector UInt8 32
  aeadSeal : Suite → Vector UInt8 32 → Bytes → Bytes → Bytes → Except AeadError Bytes
  aeadOpen : Suite → Vector UInt8 32 → Bytes → Bytes → Bytes → Except AeadError Bytes

/-- What the operating system answers to the successive requests for random bytes. -/
def Entropy := Nat → (n : Nat) → Option (Vector UInt8 n)

namespace Entropy

/-- Draw `n` bytes, or fail with `error` when the source refuses. -/
def fill {ε : Type} (error : ε) (n : Nat) : Process Entropy ε (Vector UInt8 n) := fun source =>
  match source 0 n with
  | some bytes => .ok (bytes, fun call => source (call + 1))
  | none => .error error

end Entropy

/-- An X25519 secret key; its public key is derived. -/
structure StaticSecret where
  secret : Vector UInt8 32
  deriving DecidableEq, Repr

/-- The X25519 base point, u = 9. -/
def BASEPOINT : Vector UInt8 32 := (Vector.replicate 32 0).set 0 9

namespace StaticSecret

/-- Generate a key pair from operating-system entropy. -/
def generate {ε : Type} (error : ε) : Process Entropy ε StaticSecret := do
  let bytes ← Entropy.fill error 32
  return { secret := bytes }

variable [ClientPrimitives]

def publicKey (key : StaticSecret) : Vector UInt8 32 := ClientPrimitives.x25519 key.secret BASEPOINT

omit [ClientPrimitives] in
/-- A shared secret, unless it is all zero: that must never be used as key material. -/
def keyMaterial (shared : Vector UInt8 32) : Option (Vector UInt8 32) :=
  if shared = .replicate 32 0 then none else some shared

/-- Compute the shared secret with a peer's public key. -/
def diffieHellman (key : StaticSecret) (peer : Vector UInt8 32) : Option (Vector UInt8 32) :=
  keyMaterial (ClientPrimitives.x25519 key.secret peer)

end StaticSecret

/-- A suite's AEAD opens what it sealed. -/
def Suite.OpensSealed [ClientPrimitives] (suite : Suite) : Prop :=
  ∀ key nonce aad plaintext ciphertext,
    ClientPrimitives.aeadSeal suite key nonce aad plaintext = .ok ciphertext →
      ClientPrimitives.aeadOpen suite key nonce aad ciphertext = .ok plaintext

/-- Two parties arrive at one shared secret. -/
def Agreement [ClientPrimitives] : Prop :=
  ∀ ours theirs : StaticSecret,
    ours.diffieHellman theirs.publicKey = theirs.diffieHellman ours.publicKey

/-- Primitives that undo what they do: a signature made under a seed verifies under its key,
    every suite opens what it sealed, and two parties agree. -/
class LawfulPrimitives extends ClientPrimitives where
  verifies : ∀ seed message,
    verifyStrict (verifyingKey seed) message (sign seed message) = .ok ()
  opensSealed : ∀ suite : Suite, suite.OpensSealed
  agreement : Agreement

end Blindplane.Crypto
