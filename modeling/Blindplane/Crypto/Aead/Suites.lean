import Blindplane.Crypto.Aead.ChaCha20Poly1305
import Blindplane.Crypto.Aes.SealOpen
import Blindplane.Crypto.Suite

/-! # The suites behind one interface

A suite checks the nonce, splits off what its construction takes, and seals or opens in
place. What comes out of either is said once for all three constructions: a stream XORed
into the buffer, and a tag that is a function of the ciphertext. Where the processor has no
AES instructions its suite does nothing but say so.
-/

namespace Blindplane.Crypto

open Lib Lib.Arithmetic

/-- Whether this CPU can run AES-256-GCM. -/
def Target.aesAvailable : Target → Bool
  | .portable => false
  | .aarch64 aes pmull => aes && pmull

namespace Aes

/-- Encrypt in place: the tag and the buffer, when the CPU has AES instructions. -/
def sealInPlace (target : Target) (key : Vector UInt8 32) (nonce : Vector UInt8 12) (associatedData buffer : Bytes) :
    Option (Bytes × Bytes) :=
  if target.aesAvailable then some («seal» key nonce associatedData buffer) else none

/-- Decrypt in place after verifying the tag: whether it verified, and the buffer. -/
def openInPlace (target : Target) (key : Vector UInt8 32) (nonce : Vector UInt8 12) (associatedData buffer tag : Bytes) :
    Option (Bool × Bytes) :=
  if target.aesAvailable then some («open» key nonce associatedData buffer tag) else none

end Aes

/-- Overwrite a buffer with zeros. -/
def secureErase (buffer : Bytes) : Bytes := buffer.map fun _ => 0

namespace Suite

/-- Whether this CPU can run the suite. -/
def isAvailable (target : Target) : Suite → Bool
  | .aes256Gcm => target.aesAvailable
  | .xChaCha20Poly1305 | .chaCha20Poly1305 => true

/-- The fastest suite this CPU supports. -/
def fastestAvailable (target : Target) : Suite :=
  if target.aesAvailable then .aes256Gcm else .xChaCha20Poly1305

section Routines

variable {m : Type → Type} [Monad m] [Arithmetic m]

/-- Encrypt `buffer` in place: the tag or an error, and what the buffer holds afterwards. -/
def sealInPlace (suite : Suite) (target : Target) (key : Vector UInt8 32) (nonce associatedData buffer : Bytes) :
    m (Except AeadError Bytes × Bytes) :=
  if nonce.length ≠ suite.nonceLen then return (.error .unsupported, buffer)
  else
    match suite with
    | .aes256Gcm =>
        match Aes.sealInPlace target key (fixed 12 nonce) associatedData buffer with
        | some (tag, buffer) => return (.ok tag, buffer)
        | none => return (.error .unsupported, buffer)
    | .chaCha20Poly1305 => do
        let (tag, buffer) ← chacha20poly1305Seal target key (fixed 12 nonce) associatedData buffer
        return (.ok tag, buffer)
    | .xChaCha20Poly1305 => do
        let (subkey, fixed) := xchachaSplit key nonce
        let (tag, buffer) ← chacha20poly1305Seal target subkey fixed associatedData buffer
        return (.ok tag, buffer)

/-- Verify the tag and decrypt `buffer` in place: the outcome, and what the buffer holds
    afterwards. -/
def openInPlace (suite : Suite) (target : Target) (key : Vector UInt8 32) (nonce associatedData buffer tag : Bytes) :
    m (Except AeadError Unit × Bytes) :=
  if nonce.length ≠ suite.nonceLen then return (.error .unauthenticated, buffer)
  else do
    let opened ←
      match suite with
      | .aes256Gcm => pure (Aes.openInPlace target key (fixed 12 nonce) associatedData buffer tag)
      | .chaCha20Poly1305 => some <$> chacha20poly1305Open target key (fixed 12 nonce) associatedData buffer tag
      | .xChaCha20Poly1305 =>
          let (subkey, fixed) := xchachaSplit key nonce
          some <$> chacha20poly1305Open target subkey fixed associatedData buffer tag
    match opened with
    | none => return (.error .unsupported, buffer)
    | some (true, buffer) => return (.ok (), buffer)
    | some (false, buffer) => return (.error .unauthenticated, secureErase buffer)

/-- Encrypt into a fresh buffer holding ciphertext followed by the tag. -/
def «seal» (suite : Suite) (target : Target) (key : Vector UInt8 32) (nonce associatedData plaintext : Bytes) :
    m (Except AeadError Bytes) := do
  match ← suite.sealInPlace target key nonce associatedData plaintext with
  | (.ok tag, out) => return .ok (out ++ tag)
  | (.error e, _) => return .error e

/-- Decrypt a buffer holding ciphertext followed by the tag. -/
def «open» (suite : Suite) (target : Target) (key : Vector UInt8 32) (nonce associatedData ciphertext : Bytes) :
    m (Except AeadError Bytes) :=
  if ciphertext.length < TAG_LEN then return .error .unauthenticated
  else do
    let split := ciphertext.length - TAG_LEN
    match ← suite.openInPlace target key nonce associatedData (ciphertext.take split) (ciphertext.drop split) with
    | (.ok (), out) => return .ok out
    | (.error e, _) => return .error e

end Routines

section Streams

/-- Bytes of one block of a suite's keystream. -/
def blockLen : Suite → Nat
  | .aes256Gcm => 16
  | .xChaCha20Poly1305 | .chaCha20Poly1305 => 64

/-- The counter of the first block that is XORed into the buffer. -/
def firstCounter : Suite → Word
  | .aes256Gcm => 2
  | .xChaCha20Poly1305 | .chaCha20Poly1305 => 1

/-- The counter of the block that keys or masks the authenticator. -/
def authenticatorCounter : Suite → Word
  | .aes256Gcm => 1
  | .xChaCha20Poly1305 | .chaCha20Poly1305 => 0

/-- The keystream block of a counter. -/
def block (suite : Suite) (key : Vector UInt8 32) (nonce : Bytes) (counter : Word) : Bytes :=
  match suite with
  | .aes256Gcm => Aes.ciph key (nonce ++ Bytes.be 4 counter.toNat)
  | .chaCha20Poly1305 => Rfc8439.chacha20Block key counter (fixed 12 nonce)
  | .xChaCha20Poly1305 =>
      let (subkey, fixed) := xchachaSplit key nonce
      Rfc8439.chacha20Block subkey counter fixed

/-- The counters a buffer of `length` bytes takes, in order. -/
def counters (suite : Suite) (length : Nat) : List Word :=
  (List.range ((length + suite.blockLen - 1) / suite.blockLen)).map fun i => suite.firstCounter + BitVec.ofNat 32 i

/-- A buffer with the stream of a suite XORed into it. -/
def encrypt (suite : Suite) (key : Vector UInt8 32) (nonce data : Bytes) : Bytes :=
  xorStream suite.blockLen (fun i => suite.block key nonce (suite.firstCounter + BitVec.ofNat 32 i)) data

/-- The tag of a ciphertext. -/
def tagOf (suite : Suite) (key : Vector UInt8 32) (nonce associatedData ciphertext : Bytes) : Bytes :=
  match suite with
  | .aes256Gcm => Sp80038D.tag (Aes.ciph key) nonce associatedData ciphertext
  | .chaCha20Poly1305 => Rfc8439.aeadTag key (fixed 12 nonce) associatedData ciphertext
  | .xChaCha20Poly1305 =>
      let (subkey, fixed) := xchachaSplit key nonce
      Rfc8439.aeadTag subkey fixed associatedData ciphertext

theorem encrypt_encrypt (suite : Suite) (key : Vector UInt8 32) (nonce data : Bytes) :
    suite.encrypt key nonce (suite.encrypt key nonce data) = data :=
  xorStream_xorStream data

end Streams

section Specs

variable (suite : Suite) (target : Target) (key : Vector UInt8 32) (nonce aad : Bytes)

/-- On AArch64 the stream is that of counter mode from 2 on. -/
private theorem aes_encrypt (length : nonce.length = 12) (buffer : Bytes) :
    xorStream 16 (Aes.stream key (fixed 12 nonce) 2) buffer = Suite.aes256Gcm.encrypt key nonce buffer := by
  have bytes := fixed_toList length
  rw [encrypt]
  apply congrArg (xorStream 16 · buffer)
  funext i
  rw [Aes.stream, Aes.counterBytes, bytes]
  rfl

/-- Sealing in the two suites without hardware. -/
private theorem sealed_eq (key : Vector UInt8 32) (nonce : Vector UInt8 12) (aad buffer : Bytes) (m : Type → Type)
    [Monad m] [LawfulMonad m] [Arithmetic m] [Exact m] :
    (do
      let (tag, buffer) ← chacha20poly1305Seal target key nonce aad buffer
      return (.ok tag, buffer)) =
      (pure (.ok (Rfc8439.aeadTag key nonce aad (Rfc8439.chacha20Encrypt key 1 nonce buffer)),
        Rfc8439.chacha20Encrypt key 1 nonce buffer) : m (Except AeadError Bytes × Bytes)) := by
  rw [chacha20poly1305Seal_eq, pure_bind]

/-- What sealing does. -/
theorem sealInPlace_eq (buffer : Bytes) (m : Type → Type) [Monad m] [LawfulMonad m] [Arithmetic m] [Exact m] :
    suite.sealInPlace target key nonce aad buffer =
      (pure (if nonce.length = suite.nonceLen ∧ suite.isAvailable target then
          (.ok (suite.tagOf key nonce aad (suite.encrypt key nonce buffer)), suite.encrypt key nonce buffer)
        else (.error .unsupported, buffer)) : m (Except AeadError Bytes × Bytes)) := by
  unfold sealInPlace
  by_cases length : nonce.length = suite.nonceLen
  · rw [if_neg (not_not.mpr length)]
    cases suite with
    | aes256Gcm =>
        simp only [Aes.sealInPlace]
        have twelve : nonce.length = 12 := length
        by_cases available : target.aesAvailable = true
        · have sealed := Aes.seal_eq key (fixed 12 nonce) aad buffer
          rw [Aes.encrypt_eq, aes_encrypt key nonce twelve, fixed_toList twelve] at sealed
          have both : nonce.length = aes256Gcm.nonceLen ∧ isAvailable target aes256Gcm = true := ⟨length, available⟩
          rw [if_pos available, if_pos both, sealed]
          rfl
        · have neither : ¬(nonce.length = aes256Gcm.nonceLen ∧ isAvailable target aes256Gcm = true) :=
            fun both => available both.2
          rw [if_neg available, if_neg neither]
    | chaCha20Poly1305 =>
        rw [if_pos ⟨length, rfl⟩]
        exact sealed_eq _ _ _ _ _ m
    | xChaCha20Poly1305 =>
        rw [if_pos ⟨length, rfl⟩]
        exact sealed_eq _ _ _ _ _ m
  · rw [if_pos length, if_neg (fun both => length both.1)]

/-- Opening in the two suites without hardware. -/
private theorem opened_eq (key : Vector UInt8 32) (nonce : Vector UInt8 12) (aad buffer tag : Bytes) (m : Type → Type)
    [Monad m] [LawfulMonad m] [Arithmetic m] [Exact m] :
    (do
      let opened ← some <$> chacha20poly1305Open target key nonce aad buffer tag
      match opened with
      | none => return (.error .unsupported, buffer)
      | some (true, buffer) => return (.ok (), buffer)
      | some (false, buffer) => return (.error .unauthenticated, secureErase buffer)) =
      (pure (if Rfc8439.aeadTag key nonce aad buffer = tag then (.ok (), Rfc8439.chacha20Encrypt key 1 nonce buffer)
        else (.error .unauthenticated, secureErase buffer)) : m (Except AeadError Unit × Bytes)) := by
  rw [chacha20poly1305Open_eq, map_pure, pure_bind]
  by_cases right : Rfc8439.aeadTag key nonce aad buffer = tag
  · rw [if_pos right, if_pos right]
  · rw [if_neg right, if_neg right]

/-- What opening does. -/
theorem openInPlace_eq (buffer tag : Bytes) (m : Type → Type) [Monad m] [LawfulMonad m] [Arithmetic m] [Exact m] :
    suite.openInPlace target key nonce aad buffer tag =
      (pure (if nonce.length ≠ suite.nonceLen then (.error .unauthenticated, buffer)
        else if ¬suite.isAvailable target then (.error .unsupported, buffer)
        else if suite.tagOf key nonce aad buffer = tag then (.ok (), suite.encrypt key nonce buffer)
        else (.error .unauthenticated, secureErase buffer)) : m (Except AeadError Unit × Bytes)) := by
  unfold openInPlace
  by_cases length : nonce.length = suite.nonceLen
  · rw [if_neg (not_not.mpr length), if_neg (not_not.mpr length)]
    cases suite with
    | aes256Gcm =>
        simp only [Aes.openInPlace, pure_bind]
        have twelve : nonce.length = 12 := length
        by_cases available : target.aesAvailable = true
        · have first : Sp80038D.inc32 (nonce ++ [0, 0, 0, 1]) = Aes.counterBytes (fixed 12 nonce) 2 := by
            have next := Aes.inc32_iterate (fixed 12 nonce) 1 1
            rw [Aes.counterBytes, fixed_toList twelve] at next
            exact next
          have opened := Aes.open_eq key (fixed 12 nonce) aad buffer tag
          rw [fixed_toList twelve, Sp80038D.decrypt, first, Aes.gctr_eq, aes_encrypt key nonce twelve] at opened
          have here : ¬¬isAvailable target aes256Gcm = true := not_not.mpr available
          rw [if_pos available, if_neg here, opened]
          by_cases right : tag = Sp80038D.tag (Aes.ciph key) nonce aad buffer
          · rw [if_pos right]
            exact congrArg pure (if_pos right.symm).symm
          · rw [if_neg right]
            exact congrArg pure (if_neg (Ne.symm right)).symm
        · have missing : ¬isAvailable target aes256Gcm = true := available
          rw [if_neg available, if_pos missing]
    | chaCha20Poly1305 => exact opened_eq _ _ _ _ _ _ m
    | xChaCha20Poly1305 => exact opened_eq _ _ _ _ _ _ m
  · rw [if_pos length, if_pos length]

theorem tagOf_length (ciphertext : Bytes) : (suite.tagOf key nonce aad ciphertext).length = TAG_LEN := by
  cases suite with
  | aes256Gcm =>
      rw [tagOf, Sp80038D.tag, Sp80038D.gctr, xorStream_length, Sp80038D.bytes, Bytes.be_length, TAG_LEN]
  | xChaCha20Poly1305 => rw [tagOf, Rfc8439.aeadTag_length, TAG_LEN]
  | chaCha20Poly1305 => rw [tagOf, Rfc8439.aeadTag_length, TAG_LEN]

/-- A sealed buffer is the ciphertext and its tag. -/
theorem seal_eq (plaintext : Bytes) (m : Type → Type) [Monad m] [LawfulMonad m] [Arithmetic m] [Exact m] :
    suite.«seal» target key nonce aad plaintext =
      (pure (if nonce.length = suite.nonceLen ∧ suite.isAvailable target then
          .ok (suite.encrypt key nonce plaintext ++ suite.tagOf key nonce aad (suite.encrypt key nonce plaintext))
        else .error .unsupported) : m (Except AeadError Bytes)) := by
  rw [«seal», sealInPlace_eq, pure_bind]
  by_cases able : nonce.length = suite.nonceLen ∧ suite.isAvailable target
  · rw [if_pos able, if_pos able]
  · rw [if_neg able, if_neg able]

/-- What opening a ciphertext with its tag does. -/
theorem open_eq (ciphertext : Bytes) (m : Type → Type) [Monad m] [LawfulMonad m] [Arithmetic m] [Exact m] :
    suite.«open» target key nonce aad ciphertext =
      (pure (
        let c := ciphertext.take (ciphertext.length - TAG_LEN)
        if ciphertext.length < TAG_LEN ∨ nonce.length ≠ suite.nonceLen then .error .unauthenticated
        else if ¬suite.isAvailable target then .error .unsupported
        else if suite.tagOf key nonce aad c = ciphertext.drop (ciphertext.length - TAG_LEN) then
          .ok (suite.encrypt key nonce c)
        else .error .unauthenticated) : m (Except AeadError Bytes)) := by
  unfold «open»
  by_cases short : ciphertext.length < TAG_LEN
  · rw [if_pos short]
    exact congrArg pure (if_pos (.inl short)).symm
  · rw [if_neg short]
    simp only [openInPlace_eq, pure_bind]
    by_cases length : nonce.length ≠ suite.nonceLen
    · rw [if_pos length, if_pos (.inr length)]
    · have neither : ¬(ciphertext.length < TAG_LEN ∨ nonce.length ≠ suite.nonceLen) := not_or.mpr ⟨short, length⟩
      rw [if_neg length, if_neg neither]
      by_cases available : suite.isAvailable target
      · rw [if_neg (not_not.mpr available), if_neg (not_not.mpr available)]
        by_cases right : suite.tagOf key nonce aad (ciphertext.take (ciphertext.length - TAG_LEN)) =
            ciphertext.drop (ciphertext.length - TAG_LEN)
        · rw [if_pos right, if_pos right]
        · rw [if_neg right, if_neg right]
      · rw [if_pos available, if_pos available]

end Specs

section Inverse

variable (suite : Suite) (target : Target) (key : Vector UInt8 32) (nonce aad : Bytes)

/-- On a machine that can run the suite, opening and sealing undo each other. -/
theorem opens_iff {nonce : Bytes} (length : nonce.length = suite.nonceLen) (available : suite.isAvailable target = true)
    (c t p : Bytes) (m : Type → Type) [Monad m] [LawfulMonad m] [Arithmetic m] [Exact m]
    (injective : ∀ {α : Type} {a b : α}, (pure a : m α) = pure b → a = b) :
    (suite.openInPlace target key nonce aad c t : m (Except AeadError Unit × Bytes)) = pure (.ok (), p) ↔
      (suite.sealInPlace target key nonce aad p : m (Except AeadError Bytes × Bytes)) = pure (.ok t, c) := by
  have able : nonce.length = suite.nonceLen ∧ suite.isAvailable target = true := ⟨length, available⟩
  rw [openInPlace_eq, sealInPlace_eq, if_neg (not_not.mpr length), if_neg (not_not.mpr available), if_pos able]
  constructor
  · intro opened
    have result := injective opened
    split at result
    · next right =>
      have plain : suite.encrypt key nonce c = p := congrArg Prod.snd result
      rw [← plain, encrypt_encrypt, right]
    · cases congrArg Prod.fst result
  · intro sealed
    have result := injective sealed
    have tag : suite.tagOf key nonce aad (suite.encrypt key nonce p) = t := Except.ok.inj (congrArg Prod.fst result)
    have cipher : suite.encrypt key nonce p = c := congrArg Prod.snd result
    rw [cipher] at tag
    rw [if_pos tag, ← cipher, encrypt_encrypt]

/-- In the two suites without hardware, opening succeeds exactly on what sealing leaves,
    with overflow checked or not, and every ciphertext has one tag. -/
theorem openInPlace_iff_sealInPlace (software : suite = .chaCha20Poly1305 ∨ suite = .xChaCha20Poly1305)
    (length : nonce.length = suite.nonceLen) :
    (∀ c t p, (suite.openInPlace target key nonce aad c t : Id (Except AeadError Unit × Bytes)) = (.ok (), p) ↔
      (suite.sealInPlace target key nonce aad p : Id (Except AeadError Bytes × Bytes)) = (.ok t, c)) ∧
    (∀ c t p, (suite.openInPlace target key nonce aad c t : Option (Except AeadError Unit × Bytes)) = some (.ok (), p) ↔
      (suite.sealInPlace target key nonce aad p : Option (Except AeadError Bytes × Bytes)) = some (.ok t, c)) ∧
    ∀ c, ∃! t, ∃ p, (suite.openInPlace target key nonce aad c t : Id (Except AeadError Unit × Bytes)) = (.ok (), p) := by
  have available : suite.isAvailable target = true := by
    rcases software with rfl | rfl
    · rfl
    · rfl
  refine ⟨fun c t p => opens_iff suite target key aad length available c t p Id (fun same => same),
    fun c t p => opens_iff suite target key aad length available c t p Option (fun same => Option.some.inj same),
    fun c => ⟨suite.tagOf key nonce aad c, ⟨suite.encrypt key nonce c, ?_⟩, ?_⟩⟩
  · rw [openInPlace_eq, if_neg (not_not.mpr length), if_neg (not_not.mpr available), if_pos rfl]
    rfl
  · rintro t ⟨p, opened⟩
    rw [openInPlace_eq, if_neg (not_not.mpr length), if_neg (not_not.mpr available)] at opened
    by_cases right : suite.tagOf key nonce aad c = t
    · exact right.symm
    · rw [if_neg right] at opened
      cases congrArg Prod.fst opened

/-- Three bytes have one tag under a key and a nonce of zeros. -/
theorem xchacha_sample_tag :
    ∃! t, ∃ p, (Suite.xChaCha20Poly1305.openInPlace .portable (.replicate 32 0) (List.replicate 24 0) [7] [1, 2, 3] t :
      Id (Except AeadError Unit × Bytes)) = (.ok (), p) :=
  (openInPlace_iff_sealInPlace .xChaCha20Poly1305 .portable (.replicate 32 0) (List.replicate 24 0) [7] (.inr rfl)
    List.length_replicate).2.2 [1, 2, 3]

end Inverse

section Counters

/-- No block is used twice for a buffer of `length` bytes, and the authenticator's is not
    used at all. -/
def BlocksDistinct (suite : Suite) (length : Nat) : Prop :=
  (suite.counters length).Nodup ∧ suite.authenticatorCounter ∉ suite.counters length

/-- Blocks a buffer takes. -/
def blocks (suite : Suite) (length : Nat) : Nat := (length + suite.blockLen - 1) / suite.blockLen

/-- A 32-bit counter runs through all values but the authenticator's once. -/
theorem blocksDistinct_iff (suite : Suite) (length : Nat) :
    suite.BlocksDistinct length ↔ suite.blocks length < 2 ^ 32 := by
  have next : suite.firstCounter = suite.authenticatorCounter + 1 := by cases suite <;> rfl
  constructor
  · intro distinct
    by_contra many
    apply distinct.2
    rw [counters, List.mem_map]
    refine ⟨2 ^ 32 - 1, List.mem_range.mpr ?_, ?_⟩
    · show 2 ^ 32 - 1 < suite.blocks length
      omega
    · have wrap : (1 : Word) + BitVec.ofNat 32 (2 ^ 32 - 1) = 0 := by decide
      rw [next, BitVec.add_assoc, wrap]
      exact BitVec.add_zero _
  · intro few
    constructor
    · apply List.Nodup.map_on _ List.nodup_range
      intro i hi j hj same
      rw [List.mem_range] at hi hj
      have low : i < 2 ^ 32 := Nat.lt_trans hi few
      have low' : j < 2 ^ 32 := Nat.lt_trans hj few
      have numbers := congrArg BitVec.toNat ((BitVec.add_right_inj _).mp same)
      rwa [BitVec.toNat_ofNat, BitVec.toNat_ofNat, Nat.mod_eq_of_lt low, Nat.mod_eq_of_lt low'] at numbers
    · intro member
      obtain ⟨i, hi, same⟩ := List.mem_map.mp member
      have low : i + 1 < 2 ^ 32 := Nat.lt_of_le_of_lt (List.mem_range.mp hi) few
      rw [next, BitVec.add_assoc] at same
      have back := same.trans (BitVec.add_zero suite.authenticatorCounter).symm
      have number := congrArg BitVec.toNat ((BitVec.add_right_inj _).mp back)
      rw [BitVec.toNat_add, BitVec.toNat_ofNat] at number
      have wrapped : (1 + i % 2 ^ 32) % 2 ^ 32 = 0 := number
      omega

theorem block_length (suite : Suite) (key : Vector UInt8 32) (nonce : Bytes) (counter : Word) :
    (suite.block key nonce counter).length = suite.blockLen := by
  cases suite with
  | aes256Gcm => exact Aes.ciph_length key _
  | xChaCha20Poly1305 => exact serialize_length _
  | chaCha20Poly1305 => exact serialize_length _

/-- What is XORed into a buffer are the blocks of its counters. -/
theorem encrypt_eq_blocks (suite : Suite) (key : Vector UInt8 32) (nonce data : Bytes) :
    suite.encrypt key nonce data = xorBytes data ((suite.counters data.length).flatMap (suite.block key nonce)) := by
  have positive : 0 < suite.blockLen := by
    cases suite with
    | aes256Gcm => exact Nat.zero_lt_succ 15
    | xChaCha20Poly1305 => exact Nat.zero_lt_succ 63
    | chaCha20Poly1305 => exact Nat.zero_lt_succ 63
  have fits : data.length ≤ suite.blockLen * suite.blocks data.length := by
    have division := Nat.div_add_mod (data.length + suite.blockLen - 1) suite.blockLen
    have rest := Nat.mod_lt (data.length + suite.blockLen - 1) positive
    rw [blocks]
    omega
  rw [encrypt, xorStream_group positive (fun i => suite.block_length key nonce _) fits, counters, List.flatMap_map]
  rfl

variable (suite : Suite) (target : Target) (key : Vector UInt8 32) (nonce aad buffer : Bytes)

/-- A call that is not refused for its nonce or for the machine it is made on. -/
def Sealable : Prop := nonce.length = suite.nonceLen ∧ suite.isAvailable target = true

/-- One call uses no block twice: what it XORs into a buffer it seals are the blocks of
    distinct counters other than the authenticator's, and a buffer too long for that, which
    would be sealed otherwise, is refused as too long. -/
def SealsDistinctBlocks : Prop :=
  (∀ tag c, (suite.sealInPlace target key nonce aad buffer : Id _) = (.ok tag, c) →
    ∃ used : List Word, c = xorBytes buffer (used.flatMap (suite.block key nonce)) ∧
      used = suite.counters buffer.length ∧ used.Nodup ∧ suite.authenticatorCounter ∉ used) ∧
  (suite.Sealable target nonce → ¬ suite.BlocksDistinct buffer.length →
    (suite.sealInPlace target key nonce aad buffer : Id _) = (.error .messageTooLong, buffer))

/-- No length is refused as too long. -/
theorem sealInPlace_ne_messageTooLong (rest : Bytes) :
    (suite.sealInPlace target key nonce aad buffer : Id _) ≠ (.error .messageTooLong, rest) := by
  rw [sealInPlace_eq]
  intro refused
  split at refused
  · cases congrArg Prod.fst refused
  · cases congrArg Prod.fst refused

/-- Only sealable calls are sealed, and every buffer of one is. -/
theorem sealInPlace_eq_ok_iff {tag c : Bytes} :
    (suite.sealInPlace target key nonce aad buffer : Id _) = (.ok tag, c) ↔
      suite.Sealable target nonce ∧ tag = suite.tagOf key nonce aad (suite.encrypt key nonce buffer) ∧
        c = suite.encrypt key nonce buffer := by
  rw [sealInPlace_eq, Sealable]
  constructor
  · intro sealed
    split at sealed
    · next sealable =>
      cases sealed
      exact ⟨sealable, rfl, rfl⟩
    · cases congrArg Prod.fst sealed
  · rintro ⟨sealable, rfl, rfl⟩
    exact congrArg pure (if_pos sealable)

/-- Blocks are distinct exactly where none is drawn, for a nonce of another length or a suite
    the machine does not have, and for buffers of fewer than `2 ^ 32` of them. -/
theorem sealsDistinctBlocks_iff :
    suite.SealsDistinctBlocks target key nonce aad buffer ↔
      nonce.length ≠ suite.nonceLen ∨ suite.isAvailable target = false ∨ suite.blocks buffer.length < 2 ^ 32 := by
  have condition : (nonce.length ≠ suite.nonceLen ∨ suite.isAvailable target = false ∨ suite.blocks buffer.length < 2 ^ 32) ↔
      (suite.Sealable target nonce → suite.BlocksDistinct buffer.length) := by
    rw [blocksDistinct_iff, Sealable, and_imp, Bool.eq_false_iff, ← imp_iff_not_or, ← imp_iff_not_or]
  rw [condition]
  constructor
  · intro safe sealable
    by_contra repeated
    exact sealInPlace_ne_messageTooLong suite target key nonce aad buffer buffer (safe.2 sealable repeated)
  · intro distinct
    refine ⟨?_, fun sealable repeated => absurd (distinct sealable) repeated⟩
    intro tag c sealed
    obtain ⟨sealable, -, rfl⟩ := (sealInPlace_eq_ok_iff suite target key nonce aad buffer).mp sealed
    exact ⟨_, encrypt_eq_blocks suite key nonce buffer, rfl, distinct sealable⟩

/-- A buffer of 256 GiB is sealed, and the last block of its stream is the one that keys
    the authenticator. -/
theorem not_sealsDistinctBlocks :
    (Suite.chaCha20Poly1305.isAvailable .portable = true ∧
      Suite.chaCha20Poly1305.authenticatorCounter ∈
        Suite.chaCha20Poly1305.counters (List.replicate (64 * 2 ^ 32) (0 : UInt8)).length) ∧
    ¬ Suite.chaCha20Poly1305.SealsDistinctBlocks .portable (.replicate 32 0) (List.replicate 12 0) []
      (List.replicate (64 * 2 ^ 32) 0) := by
  have member : Suite.chaCha20Poly1305.authenticatorCounter ∈
      Suite.chaCha20Poly1305.counters (List.replicate (64 * 2 ^ 32) (0 : UInt8)).length := by
    rw [List.length_replicate, counters, List.mem_map]
    exact ⟨2 ^ 32 - 1, List.mem_range.mpr (by decide), by decide⟩
  refine ⟨⟨rfl, member⟩, ?_⟩
  intro safe
  exact sealInPlace_ne_messageTooLong _ _ _ _ _ _ _ (safe.2 ⟨rfl, rfl⟩ fun distinct => distinct.2 member)

end Counters

section Erasure

variable (suite : Suite) (target : Target) (key : Vector UInt8 32) (nonce aad buffer tag : Bytes)

/-- A failed open leaves nothing but zeros behind. -/
def FailureErases : Prop :=
  ∀ e rest, (suite.openInPlace target key nonce aad buffer tag : Id _) = (.error e, rest) → ∀ byte ∈ rest, byte = 0

/-- The buffer is erased after a wrong tag, and only then: the two checks before it return
    with the buffer as it came. -/
theorem failureErases_iff :
    suite.FailureErases target key nonce aad buffer tag ↔
      (nonce.length = suite.nonceLen ∧ suite.isAvailable target = true) ∨ ∀ byte ∈ buffer, byte = 0 := by
  have erased : ∀ byte ∈ secureErase buffer, byte = 0 := by
    intro byte member
    obtain ⟨_, _, zero⟩ := List.mem_map.mp member
    exact zero.symm
  unfold FailureErases
  rw [openInPlace_eq]
  by_cases length : nonce.length = suite.nonceLen
  · rw [if_neg (not_not.mpr length)]
    by_cases available : suite.isAvailable target = true
    · rw [if_neg (not_not.mpr available)]
      refine ⟨fun _ => .inl ⟨length, available⟩, ?_⟩
      intro _ e rest failed
      by_cases right : suite.tagOf key nonce aad buffer = tag
      · rw [if_pos right] at failed
        cases congrArg Prod.fst failed
      · rw [if_neg right] at failed
        have left : secureErase buffer = rest := congrArg Prod.snd failed
        exact left ▸ erased
    · rw [if_pos available]
      constructor
      · intro erases
        exact .inr (erases _ _ rfl)
      · rintro (able | zero) e rest failed
        · exact absurd able.2 available
        · have left : buffer = rest := congrArg Prod.snd failed
          exact left ▸ zero
  · rw [if_pos length]
    constructor
    · intro erases
      exact .inr (erases _ _ rfl)
    · rintro (able | zero) e rest failed
      · exact absurd able.1 length
      · have left : buffer = rest := congrArg Prod.snd failed
        exact left ▸ zero

/-- A nonce of the wrong length: the ciphertext stays in the buffer. -/
theorem not_failureErases :
    ¬ Suite.chaCha20Poly1305.FailureErases .portable (.replicate 32 0) [] [] [1] (List.replicate 16 0) := by
  intro erases
  have one : (1 : UInt8) = 0 := erases .unauthenticated [1] rfl 1 List.mem_cons_self
  cases one

end Erasure

end Suite

end Blindplane.Crypto
