import Blindplane.Crypto.ChaCha.Neon
import Blindplane.Crypto.Poly1305

/-! # ChaCha20-Poly1305

Sealing encrypts and authenticates in one pass over pieces of 512 bytes; opening
authenticates the whole ciphertext and then decrypts it. Both come to the construction of
RFC 8439, whatever the pieces, and the construction can be read in both directions: a tag
is a function of the ciphertext, and encryption is its own inverse.
-/

namespace Blindplane.Crypto

open Lib Lib.Arithmetic

/-- What a build runs on: AArch64 with the accelerated routines, on a CPU that may have the
    AES and the polynomial instructions, or anything else. -/
inductive Target where
  | portable
  | aarch64 (aes pmull : Bool)
  deriving DecidableEq, Repr

namespace ChaCha20

/-- XOR the keystream into `data` in place. -/
def applyKeystreamOn (target : Target) (cipher : ChaCha20) (data : Bytes) : ChaCha20 × Bytes :=
  match target with
  | .portable => cipher.applyKeystream data
  | .aarch64 _ _ =>
      let (state, data) := Neon.applyKeystream cipher.state data
      ({ state }, data)

theorem applyKeystreamOn_eq (target : Target) (cipher : ChaCha20) (data : Bytes) :
    cipher.applyKeystreamOn target data =
      ({ state := advance cipher.state ((data.length + 63) / 64) }, xorStream 64 (keystream cipher.state) data) := by
  cases target with
  | portable => exact applyKeystream_eq cipher data
  | aarch64 aes pmull => rw [applyKeystreamOn, Neon.applyKeystream_eq]

end ChaCha20

/-- HChaCha20: derive a 256-bit subkey from a key and a 128-bit nonce. -/
def hchacha20 (key : Vector UInt8 32) (nonce : Vector UInt8 16) : Vector UInt8 32 :=
  let state : Vector Word 16 := Vector.ofFn fun i =>
    if i.val < 4 then ChaCha20.SIGMA.getD i.val 0
    else if i.val < 12 then wordAt key.toList (i.val - 4)
    else wordAt nonce.toList (i.val - 12)
  let state := (Word.ops.rounds state).toList
  -- the first and last rows, without the feed-forward add
  fixed 32 ((state.take 4 ++ state.drop 12).flatMap fun word => Bytes.le 4 word.toNat)

/-- The XChaCha subkey and the 96-bit nonce it is used with. -/
def xchachaSplit (key : Vector UInt8 32) (nonce : Bytes) : Vector UInt8 32 × Vector UInt8 12 :=
  (hchacha20 key (fixed 16 (nonce.take 16)), fixed 12 (List.replicate 4 0 ++ (nonce.drop 16).take 8))

/-- Bytes sealed per step of the fused encrypt-and-MAC loop. -/
def FUSE_CHUNK : Nat := 512

/-- The one-time Poly1305 key is the cipher's block zero. -/
def polyKey (target : Target) (key : Vector UInt8 32) (nonce : Vector UInt8 12) : Vector UInt8 32 :=
  let (_, block) := (ChaCha20.new key nonce 0).applyKeystreamOn target (List.replicate 64 0)
  fixed 32 (block.take 32)

section Routines

variable {m : Type → Type} [Monad m] [Arithmetic m]

/-- Encrypt and authenticate piece by piece. -/
def fuse (target : Target) (cipher : ChaCha20) (mac : Poly1305) : List Bytes → m (Poly1305 × Bytes)
  | [] => return (mac, [])
  | chunk :: rest => do
      let (cipher, chunk) := cipher.applyKeystreamOn target chunk
      let mac ← mac.update chunk
      let (mac, rest) ← fuse target cipher mac rest
      return (mac, chunk ++ rest)

/-- The tag, and the buffer encrypted. -/
def chacha20poly1305Seal (target : Target) (key : Vector UInt8 32) (nonce : Vector UInt8 12)
    (associatedData buffer : Bytes) : m (Bytes × Bytes) := do
  let mac ← Poly1305.new (polyKey target key nonce)
  let mac ← mac.update associatedData
  let mac ← mac.padToBlock
  let (mac, buffer) ← fuse target (ChaCha20.new key nonce 1) mac (chunks FUSE_CHUNK buffer)
  let mac ← mac.padToBlock
  let mac ← mac.update (Bytes.le 8 associatedData.length)
  let mac ← mac.update (Bytes.le 8 buffer.length)
  return (← mac.finalize, buffer)

/-- Whether the tag is right; only then is the buffer decrypted. -/
def chacha20poly1305Open (target : Target) (key : Vector UInt8 32) (nonce : Vector UInt8 12)
    (associatedData buffer tag : Bytes) : m (Bool × Bytes) := do
  let mac ← Poly1305.new (polyKey target key nonce)
  let mac ← mac.update associatedData
  let mac ← mac.padToBlock
  let mac ← mac.update buffer
  let mac ← mac.padToBlock
  let mac ← mac.update (Bytes.le 8 associatedData.length)
  let mac ← mac.update (Bytes.le 8 buffer.length)
  if ¬(ctEqBytes (← mac.finalize) tag).isSet then return (false, buffer)
  else return (true, ((ChaCha20.new key nonce 1).applyKeystreamOn target buffer).2)

end Routines

namespace Rfc8439

/-- `chacha20_encrypt`. -/
def chacha20Encrypt (key : Vector UInt8 32) (counter : Word) (nonce : Vector UInt8 12) (plaintext : Bytes) : Bytes :=
  xorStream 64 (fun i => chacha20Block key (counter + BitVec.ofNat 32 i) nonce) plaintext

/-- `poly1305_key_gen`. -/
def poly1305KeyGen (key : Vector UInt8 32) (nonce : Vector UInt8 12) : Bytes := (chacha20Block key 0 nonce).take 32

/-- The tag of a ciphertext. -/
def aeadTag (key : Vector UInt8 32) (nonce : Vector UInt8 12) (aad ciphertext : Bytes) : Bytes :=
  poly1305 (poly1305KeyGen key nonce)
    (aad ++ pad16 aad ++ ciphertext ++ pad16 ciphertext ++ Bytes.le 8 aad.length ++ Bytes.le 8 ciphertext.length)

theorem aeadTag_length (key : Vector UInt8 32) (nonce : Vector UInt8 12) (aad ciphertext : Bytes) :
    (aeadTag key nonce aad ciphertext).length = 16 := by
  rw [aeadTag, poly1305, Bytes.le_length]

theorem chacha20Encrypt_chacha20Encrypt (key : Vector UInt8 32) (counter : Word) (nonce : Vector UInt8 12)
    (data : Bytes) : chacha20Encrypt key counter nonce (chacha20Encrypt key counter nonce data) = data :=
  xorStream_xorStream data

end Rfc8439

theorem applyKeystreamOn_new (target : Target) (key : Vector UInt8 32) (nonce : Vector UInt8 12) (counter : Word)
    (data : Bytes) :
    ((ChaCha20.new key nonce counter).applyKeystreamOn target data).2 =
      Rfc8439.chacha20Encrypt key counter nonce data := by
  rw [ChaCha20.applyKeystreamOn_eq, ChaCha20.new_state, Rfc8439.chacha20Encrypt]
  exact congrArg (xorStream 64 · data) (funext (keystream_initState key counter nonce))

/-- Zeros under the stream are the stream. -/
theorem polyKey_eq (target : Target) (key : Vector UInt8 32) (nonce : Vector UInt8 12) :
    (polyKey target key nonce).toList = Rfc8439.poly1305KeyGen key nonce := by
  have block : ((ChaCha20.new key nonce 0).applyKeystreamOn target (List.replicate 64 0)).2 =
      Rfc8439.chacha20Block key 0 nonce := by
    have length : (Rfc8439.chacha20Block key 0 nonce).length = 64 := chacha20Block_length key 0 nonce
    have whole : (List.replicate 64 (0 : UInt8)).length ≤ 64 := Nat.le_of_eq List.length_replicate
    obtain ⟨stream, estream⟩ :
        ∃ stream, stream = fun i => Rfc8439.chacha20Block key (0 + BitVec.ofNat 32 i) nonce := ⟨_, rfl⟩
    have first : stream 0 = Rfc8439.chacha20Block key 0 nonce := by
      rw [estream]
      exact congrArg (Rfc8439.chacha20Block key · nonce) (BitVec.add_zero 0)
    rw [applyKeystreamOn_new, Rfc8439.chacha20Encrypt, ← estream, xorStream_of_le (by rw [first, length]) whole, first]
    apply List.ext_getElem
    · rw [xorBytes_length, length, List.length_replicate, Nat.min_self]
    · intro i _ _
      simp only [xorBytes, List.getElem_zipWith, List.getElem_replicate, UInt8.zero_xor]
  have half : ((Rfc8439.chacha20Block key 0 nonce).take 32).length = 32 := by
    rw [List.length_take, chacha20Block_length]
    rfl
  rw [polyKey, Rfc8439.poly1305KeyGen, ← fixed_toList half, ← block]

/-- The fused pass encrypts with one stream, and its authenticator has taken the ciphertext. -/
theorem fuse_eq (target : Target) {mac : Poly1305} {key seen : Bytes} (holds : mac.Holds key seen) (cipher : ChaCha20)
    (buffer : Bytes) :
    ∃ mac' : Poly1305, mac'.Holds key (seen ++ xorStream 64 (keystream cipher.state) buffer) ∧
      ∀ (m : Type → Type) [Monad m] [LawfulMonad m] [Arithmetic m] [Exact m],
        fuse target cipher mac (chunks FUSE_CHUNK buffer) =
          (pure (mac', xorStream 64 (keystream cipher.state) buffer) : m (Poly1305 × Bytes)) := by
  induction size : buffer.length using Nat.strong_induction_on generalizing cipher mac seen buffer with
  | _ size' ih =>
    subst size
    by_cases empty : buffer = []
    · subst empty
      refine ⟨mac, by rwa [xorStream_nil, List.append_nil], fun m _ _ _ _ => ?_⟩
      rw [chunks_nil, xorStream_nil]
      rfl
    · have positive := List.length_pos_iff.mpr empty
      have step : 0 < FUSE_CHUNK := by decide
      have shorter : (buffer.drop FUSE_CHUNK).length < buffer.length := by
        rw [List.length_drop]
        omega
      obtain ⟨next, holdsNext, updates⟩ := holds.update (xorStream 64 (keystream cipher.state) (buffer.take FUSE_CHUNK))
      obtain ⟨last, holdsLast, runs⟩ := ih _ shorter holdsNext
        { state := advance cipher.state (((buffer.take FUSE_CHUNK).length + 63) / 64) } _ rfl
      have joined : xorStream 64 (keystream cipher.state) (buffer.take FUSE_CHUNK) ++
          xorStream 64 (keystream (advance cipher.state (((buffer.take FUSE_CHUNK).length + 63) / 64)))
            (buffer.drop FUSE_CHUNK) = xorStream 64 (keystream cipher.state) buffer := by
        rcases Nat.lt_or_ge buffer.length FUSE_CHUNK with short | long
        · rw [List.take_of_length_le (Nat.le_of_lt short), List.drop_of_length_le (Nat.le_of_lt short), xorStream_nil,
            List.append_nil]
        · have first : (buffer.take FUSE_CHUNK).length = 512 := by
            rw [List.length_take, Nat.min_eq_left long, FUSE_CHUNK]
          have whole : 64 ∣ (buffer.take FUSE_CHUNK).length := by
            rw [first]
            exact Dvd.intro 8 rfl
          have append := @xorStream_append 64 (keystream cipher.state) (by decide) _ whole (buffer.drop FUSE_CHUNK)
          rw [List.take_append_drop, first, ← keystream_advance] at append
          rw [first, append]
      refine ⟨last, ?_, fun m _ _ _ _ => ?_⟩
      · rwa [List.append_assoc, joined] at holdsLast
      · rw [chunks_of_ne_nil step empty, fuse, ChaCha20.applyKeystreamOn_eq]
        simp only [updates m, pure_bind, runs m, joined]

/-- The one-time key, the associated data and its padding. -/
private theorem begin_holds (target : Target) (key : Vector UInt8 32) (nonce : Vector UInt8 12) (aad : Bytes) :
    ∃ new updated padded : Poly1305, padded.Holds (Rfc8439.poly1305KeyGen key nonce) (aad ++ Rfc8439.pad16 aad) ∧
      ∀ (m : Type → Type) [Monad m] [LawfulMonad m] [Arithmetic m] [Exact m],
        Poly1305.new (polyKey target key nonce) = (pure new : m Poly1305) ∧
          new.update aad = (pure updated : m Poly1305) ∧ updated.padToBlock = (pure padded : m Poly1305) := by
  obtain ⟨new, starts, news⟩ := Poly1305.new_holds (polyKey target key nonce)
  obtain ⟨updated, holds, updates⟩ := starts.update aad
  obtain ⟨padded, aligned, pads⟩ := holds.padToBlock
  rw [polyKey_eq, List.nil_append] at aligned
  exact ⟨new, updated, padded, aligned, fun m _ _ _ _ => ⟨news m, updates m, pads m⟩⟩

/-- Behind the ciphertext: its padding, the two lengths, and the tag. -/
private theorem end_holds {mac : Poly1305} {key : Vector UInt8 32} {nonce : Vector UInt8 12} {aad ciphertext : Bytes}
    (holds : mac.Holds (Rfc8439.poly1305KeyGen key nonce) (aad ++ Rfc8439.pad16 aad ++ ciphertext)) :
    ∃ padded first second : Poly1305,
      ∀ (m : Type → Type) [Monad m] [LawfulMonad m] [Arithmetic m] [Exact m],
        mac.padToBlock = (pure padded : m Poly1305) ∧
          padded.update (Bytes.le 8 aad.length) = (pure first : m Poly1305) ∧
          first.update (Bytes.le 8 ciphertext.length) = (pure second : m Poly1305) ∧
          second.finalize = (pure (Rfc8439.aeadTag key nonce aad ciphertext) : m Bytes) := by
  have length : (Rfc8439.poly1305KeyGen key nonce).length = 32 := by
    rw [Rfc8439.poly1305KeyGen, List.length_take, chacha20Block_length]
    rfl
  obtain ⟨padded, aligned, pads⟩ := holds.padToBlock
  rw [Rfc8439.pad16_append (Rfc8439.dvd_append_pad16 aad)] at aligned
  obtain ⟨first, one, updatesFirst⟩ := aligned.update (Bytes.le 8 aad.length)
  obtain ⟨second, two, updatesSecond⟩ := one.update (Bytes.le 8 ciphertext.length)
  exact ⟨padded, first, second, fun m _ _ _ _ =>
    ⟨pads m, updatesFirst m, updatesSecond m, two.finalize length m⟩⟩

/-- Sealing is the construction of RFC 8439. -/
theorem chacha20poly1305Seal_eq (target : Target) (key : Vector UInt8 32) (nonce : Vector UInt8 12) (aad plaintext : Bytes)
    (m : Type → Type) [Monad m] [LawfulMonad m] [Arithmetic m] [Exact m] :
    chacha20poly1305Seal target key nonce aad plaintext =
      (pure (Rfc8439.aeadTag key nonce aad (Rfc8439.chacha20Encrypt key 1 nonce plaintext),
        Rfc8439.chacha20Encrypt key 1 nonce plaintext) : m (Bytes × Bytes)) := by
  have stream : xorStream 64 (keystream (ChaCha20.new key nonce 1).state) plaintext =
      Rfc8439.chacha20Encrypt key 1 nonce plaintext := by
    rw [← applyKeystreamOn_new target, ChaCha20.applyKeystreamOn_eq]
  obtain ⟨new, updated, padded, holds, begins⟩ := begin_holds target key nonce aad
  obtain ⟨fused, taken, fuses⟩ := fuse_eq target holds (ChaCha20.new key nonce 1) plaintext
  rw [stream] at taken
  obtain ⟨last, first, second, ends⟩ := end_holds taken
  obtain ⟨news, updates, pads⟩ := begins m
  obtain ⟨padsLast, updatesFirst, updatesSecond, finalizes⟩ := ends m
  simp only [chacha20poly1305Seal, news, pure_bind, updates, pads, fuses m, stream, padsLast, updatesFirst,
    updatesSecond, finalizes]

/-- Opening compares the tag of the ciphertext, and encrypts it once more. -/
theorem chacha20poly1305Open_eq (target : Target) (key : Vector UInt8 32) (nonce : Vector UInt8 12)
    (aad ciphertext tag : Bytes) (m : Type → Type) [Monad m] [LawfulMonad m] [Arithmetic m] [Exact m] :
    chacha20poly1305Open target key nonce aad ciphertext tag =
      (pure (if Rfc8439.aeadTag key nonce aad ciphertext = tag then (true, Rfc8439.chacha20Encrypt key 1 nonce ciphertext)
        else (false, ciphertext)) : m (Bool × Bytes)) := by
  obtain ⟨new, updated, padded, holds, begins⟩ := begin_holds target key nonce aad
  obtain ⟨whole, taken, takes⟩ := holds.update ciphertext
  obtain ⟨last, first, second, ends⟩ := end_holds taken
  obtain ⟨news, updates, pads⟩ := begins m
  obtain ⟨padsLast, updatesFirst, updatesSecond, finalizes⟩ := ends m
  simp only [chacha20poly1305Open, news, pure_bind, updates, pads, takes m, padsLast, updatesFirst, updatesSecond,
    finalizes, isSet_ctEqBytes, decide_eq_true_eq, applyKeystreamOn_new]
  by_cases right : Rfc8439.aeadTag key nonce aad ciphertext = tag
  · rw [if_neg (not_not.mpr right), if_pos right]
  · rw [if_pos right, if_neg right]

end Blindplane.Crypto
