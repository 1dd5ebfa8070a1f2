import Blindplane.Core.Identity
import Blindplane.Crypto.Argon2.Argon2id
import Blindplane.Crypto.Simple.Key

/-! # Keys from passwords

A vault is opened by a password and by nothing that its machine keeps, so that it must open on
the next machine too. The key depends on the password, the salt and the cost parameters only;
what was written under it can be read elsewhere as far as the suite of the writer runs there.
-/

namespace Blindplane.Crypto.Key

open Lib Argon2

/-- Derive a key from a password; nothing where the derived bytes do not fill the key. -/
def fromPassword (password salt : Bytes) : Option (Except CryptoError Key) := do
  match ← argon2id password salt .default with
  | .error _ => return .error .invalidParameters
  | .ok derived =>
      let secret ← Bytes.asArray 32 derived
      return .ok { secret }

section Elsewhere

variable {here there : Target} {key : Key} {plaintext context : Bytes}

/-- A sealed text is the same on every machine that runs the suite. -/
theorem seal_elsewhere {suite : Suite} {nonce sealed : Bytes} (length : nonce.length = suite.nonceLen)
    (available : suite.isAvailable here = true) (elsewhere : suite.isAvailable there = true)
    (ran : (suite.«seal» here key.secret nonce context plaintext : Id (Except AeadError Bytes)) = .ok sealed) :
    (suite.«seal» there key.secret nonce context plaintext : Id (Except AeadError Bytes)) = .ok sealed := by
  have text := sealed_eq here key plaintext context length available ran
  have able : nonce.length = suite.nonceLen ∧ suite.isAvailable there = true := ⟨length, elsewhere⟩
  rw [Suite.seal_eq, if_pos able, text]
  rfl

/-- A written text opens where its suite runs, and is refused where it does not. -/
theorem decrypt_elsewhere {suite : Suite} {nonce body : Bytes} (length : nonce.length = suite.nonceLen)
    (available : suite.isAvailable here = true)
    (ran : (suite.«seal» here key.secret nonce context plaintext : Id (Except AeadError Bytes)) = .ok body)
    (first : suite = .aes256Gcm ∨ suite = .xChaCha20Poly1305 ∧ nonce[12]? ≠ some 1) :
    key.decrypt there (nonce ++ [suite.code] ++ body) context =
      if suite.isAvailable there = true then .ok plaintext else .error .unsupported := by
  have long := sealed_length here key plaintext context length available ran
  have nonempty := (open_sealed here key plaintext context length available ran).2
  rw [decrypt_written there key context length nonempty first]
  split
  · next elsewhere =>
    rw [(open_sealed there key plaintext context length elsewhere (seal_elsewhere length available elsewhere ran)).1]
    rfl
  · next missing =>
    have whole : ¬(body.length < TAG_LEN ∨ nonce.length ≠ suite.nonceLen) :=
      not_or.mpr ⟨Nat.not_lt.mpr long, not_not.mpr length⟩
    rw [Suite.open_eq]
    simp only [if_neg whole, if_pos missing]
    rfl

end Elsewhere

section Derivation

open Rfc9106

/-- Under the default cost only the salt can be refused. -/
theorem fromPassword_eq (password salt : Bytes) :
    fromPassword password salt =
      some (if 8 ≤ salt.length then .ok ⟨fixed 32 (tag password salt 65536 3 32)⟩ else .error .invalidParameters) := by
  split
  · next salted =>
    have valid : Valid salt .default := ⟨by decide, by decide, by decide, salted⟩
    have derived : argon2id password salt .default = some (.ok (tag password salt 65536 3 32)) :=
      argon2id_eq valid (by decide)
    have filled : Bytes.asArray 32 (tag password salt 65536 3 32) = some (fixed 32 (tag password salt 65536 3 32)) :=
      Bytes.asArray_eq_some.mpr (fixed_toList (tag_length password salt 65536 3 (by decide) (by decide))).symm
    simp only [fromPassword, derived, Option.bind_eq_bind, Option.bind_some, filled]
    rfl
  · next short =>
    have refused : argon2id password salt .default = some (.error {}) := if_pos (.inr (.inr (.inr (Nat.lt_of_not_le short))))
    rw [fromPassword, refused]
    rfl

end Derivation

end Blindplane.Crypto.Key

namespace Blindplane.Core

open Lib Crypto Argon2 Rfc9106

/-- Derive a client vault key from a password. -/
def deriveVaultKey (password salt : Bytes) (params : Argon2Params) : Option (Except CryptoError (Vector UInt8 32)) := do
  match ← argon2id password salt params with
  | .error _ => return .error .invalidVaultParameters
  | .ok derived =>
      if derived.length ≠ 32 then return .error .invalidVaultParameters
      else return .ok (fixed 32 derived)

/-- Costs and a salt that a vault key can be derived with. -/
def Derivable (salt : Bytes) (params : Argon2Params) : Prop :=
  8 ≤ params.memoryKib.toNat ∧ 1 ≤ params.passes.toNat ∧ params.outputLen = 32 ∧ 8 ≤ salt.length

instance (salt : Bytes) (params : Argon2Params) : Decidable (Derivable salt params) :=
  inferInstanceAs (Decidable (_ ∧ _))

theorem deriveVaultKey_eq (password salt : Bytes) {params : Argon2Params} (short : params.outputLen < 2 ^ 64) :
    deriveVaultKey password salt params = some (
      if Derivable salt params then
        .ok (fixed 32 (tag password salt params.memoryKib.toNat params.passes.toNat 32))
      else .error .invalidVaultParameters) := by
  by_cases valid : Valid salt params
  · have derived : argon2id password salt params = _ := argon2id_eq valid short
    have length := tag_length password salt params.memoryKib.toNat params.passes.toNat (valid.output.trans' (by decide)) short
    obtain ⟨memory, passes, output, salted⟩ := valid
    simp only [deriveVaultKey, derived, Option.bind_eq_bind, Option.bind_some, length]
    by_cases sized : params.outputLen = 32
    · rw [if_neg (not_not.mpr sized), if_pos ⟨memory, passes, sized, salted⟩, sized]
      rfl
    · rw [if_pos sized, if_neg fun derivable => sized derivable.2.2.1]
      rfl
  · have refused : argon2id password salt params = some (.error {}) :=
      if_pos (not_not.mp (mt valid_iff.mpr valid))
    have excluded : ¬ Derivable salt params := by
      rintro ⟨memory, passes, sized, salted⟩
      exact valid ⟨memory, passes, sized ▸ (by decide), salted⟩
    rw [deriveVaultKey, refused, if_neg excluded]
    rfl

/-- A password and a salt make one key on every machine, for any cost that leaves room for 32
    bytes, and are refused otherwise; an output length is a machine size. What one machine encrypts under a key another decrypts
    where it runs the writer's suite; a writer without AES instructions is read everywhere,
    unless its nonce looks like the header of an AES text. -/
theorem vault_exact (password salt : Bytes) :
    (∀ params : Argon2Params, params.outputLen < 2 ^ 64 → deriveVaultKey password salt params = some (
      if Derivable salt params then
        .ok (fixed 32 (tag password salt params.memoryKib.toNat params.passes.toNat 32))
      else .error .invalidVaultParameters)) ∧
    (Key.fromPassword password salt = some (
      if 8 ≤ salt.length then .ok ⟨fixed 32 (tag password salt 65536 3 32)⟩ else .error .invalidParameters)) ∧
    ∀ (here there : Target) (key : Key) (plaintext context : Bytes) (source rest : Entropy) (sealed : Bytes),
      key.encrypt here plaintext context source = .ok (sealed, rest) →
        (here.aesAvailable = true → key.decrypt there sealed context =
          if there.aesAvailable = true then .ok plaintext else .error .unsupported) ∧
        (here.aesAvailable = false → (∀ nonce, source 0 24 = some nonce → nonce.toList[12]? ≠ some 1) →
          key.decrypt there sealed context = .ok plaintext) := by
  refine ⟨fun params short => deriveVaultKey_eq password salt short, Key.fromPassword_eq password salt, ?_⟩
  intro here there key plaintext context source rest sealed ran
  obtain ⟨nonce, body, drawn, closed, rfl, -⟩ := (Key.encrypt_eq_ok here key plaintext context).mp ran
  have length : nonce.toList.length = (Suite.fastestAvailable here).nonceLen := Vector.length_toList
  have elsewhere := @Key.decrypt_elsewhere here there key plaintext context _ _ _ length
    (Key.fastestAvailable_isAvailable here) closed
  constructor
  · intro aes
    have fastest : Suite.fastestAvailable here = .aes256Gcm := if_pos aes
    rw [elsewhere (.inl fastest), fastest]
    rfl
  · intro software harmless
    have fastest : Suite.fastestAvailable here = .xChaCha20Poly1305 := if_neg (Bool.eq_false_iff.mp software)
    have size : (Suite.fastestAvailable here).nonceLen = 24 := by
      rw [fastest]
      rfl
    have apart : ∀ n, n = 24 → ∀ nonce : Vector UInt8 n, source 0 n = some nonce → nonce.toList[12]? ≠ some 1 := by
      rintro n rfl
      exact harmless
    rw [elsewhere (.inr ⟨fastest, apart _ size nonce drawn⟩), fastest]
    rfl

end Blindplane.Core
