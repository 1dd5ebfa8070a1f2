import Blindplane.Crypto.Aead.Suites
import Blindplane.Crypto.Client

/-! # The symmetric key

Encryption picks the fastest suite of the machine and writes the nonce, the code of the
suite and the sealed text. Decryption does not know which suite wrote a text, and so where
its code stands: it tries the suites in order, and takes the first whose code it finds at
its place.
-/

namespace Blindplane.Crypto

open Lib Checked

/-- What can go wrong. -/
inductive CryptoError where
  | randomness
  | unauthenticated
  | unsupported
  | invalidParameters
  deriving DecidableEq, Repr

def CryptoError.ofAead : AeadError → CryptoError
  | .unsupported => .unsupported
  | .unauthenticated | .messageTooLong => .unauthenticated

/-- A 256-bit symmetric key. -/
structure Key where
  secret : Vector UInt8 32

namespace Key

section Routines

variable (target : Target) (key : Key)

/-- Encrypt `plaintext`, binding it to `context`. -/
def encrypt (plaintext context : Bytes) : Process Entropy CryptoError Bytes := do
  let suite := Suite.fastestAvailable target
  let nonce ← Entropy.fill .randomness suite.nonceLen
  let sealing : Id (Except AeadError Bytes) := suite.«seal» target key.secret nonce.toList context plaintext
  let sealed ← Process.embed (sealing.run.mapError CryptoError.ofAead)
  return nonce.toList ++ [suite.code] ++ sealed

/-- Open with the first of the suites whose code stands behind its nonce. -/
def decryptWith (sealed context : Bytes) : List Suite → Except CryptoError Bytes
  | [] => .error .unauthenticated
  | suite :: rest =>
      let header := suite.nonceLen + 1
      if header < sealed.length ∧ sealed[suite.nonceLen]? = some suite.code then
        let opening : Id (Except AeadError Bytes) :=
          suite.«open» target key.secret (sealed.take suite.nonceLen) context (sealed.drop header)
        opening.run.mapError CryptoError.ofAead
      else decryptWith sealed context rest

/-- Decrypt something produced by `encrypt`. -/
def decrypt (sealed context : Bytes) : Except CryptoError Bytes :=
  decryptWith target key sealed context [.aes256Gcm, .xChaCha20Poly1305, .chaCha20Poly1305]

end Routines

section Headers

variable {target : Target} {key : Key} {sealed context : Bytes} {suite : Suite} {rest : List Suite}

/-- The code of a suite stands at its place. -/
def Names (sealed : Bytes) (suite : Suite) : Prop :=
  suite.nonceLen + 1 < sealed.length ∧ sealed[suite.nonceLen]? = some suite.code

theorem decryptWith_of_names (here : Names sealed suite) :
    decryptWith target key sealed context (suite :: rest) =
      (suite.«open» target key.secret (sealed.take suite.nonceLen) context (sealed.drop (suite.nonceLen + 1)) :
        Id (Except AeadError Bytes)).run.mapError CryptoError.ofAead :=
  if_pos here

theorem decryptWith_of_not_names (elsewhere : ¬ Names sealed suite) :
    decryptWith target key sealed context (suite :: rest) = decryptWith target key sealed context rest :=
  if_neg elsewhere

/-- The parts of a text that names a suite. -/
theorem names_append {nonce body : Bytes} (length : nonce.length = suite.nonceLen) (nonempty : body ≠ []) :
    Names (nonce ++ [suite.code] ++ body) suite ∧
      (nonce ++ [suite.code] ++ body).take suite.nonceLen = nonce ∧
      (nonce ++ [suite.code] ++ body).drop (suite.nonceLen + 1) = body := by
  have some_body : 0 < body.length := List.length_pos_iff.mpr nonempty
  refine ⟨⟨?_, ?_⟩, ?_, ?_⟩
  · simp only [List.length_append, List.length_singleton]
    omega
  · rw [List.append_assoc, ← length, List.getElem?_append_right (Nat.le_refl _), Nat.sub_self]
    rfl
  · rw [List.append_assoc, ← length, List.take_left]
  · apply List.drop_left'
    rw [List.length_append, length, List.length_singleton]

end Headers

section Failures

variable (target : Target) (key : Key) (sealed context : Bytes)

/-- What an opening fails with. -/
theorem open_error {suite : Suite} {nonce body : Bytes} {e : AeadError}
    (failed : (suite.«open» target key.secret nonce context body : Id (Except AeadError Bytes)) = .error e) :
    e = .unauthenticated ∨ e = .unsupported ∧ ¬ suite.isAvailable target = true ∧ TAG_LEN ≤ body.length := by
  rw [Suite.open_eq] at failed
  by_cases malformed : body.length < TAG_LEN ∨ nonce.length ≠ suite.nonceLen
  · simp only [if_pos malformed] at failed
    cases failed
    exact .inl rfl
  · simp only [if_neg malformed] at failed
    by_cases available : suite.isAvailable target = true
    · rw [if_neg (not_not.mpr available)] at failed
      split at failed
      · cases failed
      · cases failed
        exact .inl rfl
    · rw [if_pos available] at failed
      cases failed
      exact .inr ⟨rfl, available, Nat.not_lt.mp (not_or.mp malformed).1⟩

/-- Decryption fails with one error, unless a suite is named that this machine cannot run. -/
theorem decryptWith_error {suites : List Suite} {e : CryptoError}
    (failed : decryptWith target key sealed context suites = .error e) :
    e = .unauthenticated ∨ e = .unsupported ∧ ∃ suite ∈ suites, ¬ suite.isAvailable target = true ∧
      Names sealed suite ∧ TAG_LEN ≤ (sealed.drop (suite.nonceLen + 1)).length := by
  induction suites with
  | nil =>
      cases failed
      exact .inl rfl
  | cons suite rest ih =>
      by_cases here : Names sealed suite
      · rw [decryptWith_of_names here] at failed
        cases opened : (suite.«open» target key.secret (sealed.take suite.nonceLen) context
            (sealed.drop (suite.nonceLen + 1)) : Id (Except AeadError Bytes)).run with
        | ok text =>
            rw [opened, mapError_ok] at failed
            cases failed
        | error cause =>
            rw [opened, mapError_error] at failed
            cases failed
            rcases open_error target key context opened with rfl | ⟨rfl, missing, long⟩
            · exact .inl rfl
            · exact .inr ⟨rfl, suite, List.mem_cons_self, missing, here, long⟩
      · rw [decryptWith_of_not_names here] at failed
        rcases ih failed with same | ⟨same, other, member, found⟩
        · exact .inl same
        · exact .inr ⟨same, other, List.mem_cons_of_mem _ member, found⟩

/-- A text with the code of AES-256-GCM at its place, on a machine that cannot run it. -/
def NamesMissing : Prop := target.aesAvailable = false ∧ sealed[12]? = some 1 ∧ 29 ≤ sealed.length

theorem decrypt_error {e : CryptoError} (failed : key.decrypt target sealed context = .error e) :
    e = .unauthenticated ∨ e = .unsupported ∧ NamesMissing target sealed := by
  rcases decryptWith_error target key sealed context failed with same | ⟨same, suite, -, missing, named, long⟩
  · exact .inl same
  · cases suite with
    | aes256Gcm =>
        rw [List.length_drop] at long
        have total : 16 ≤ sealed.length - 13 := long
        exact .inr ⟨same, Bool.eq_false_iff.mpr missing, named.2, by omega⟩
    | xChaCha20Poly1305 => exact absurd rfl missing
    | chaCha20Poly1305 => exact absurd rfl missing

theorem decrypt_of_namesMissing (missing : NamesMissing target sealed) :
    key.decrypt target sealed context = .error .unsupported := by
  obtain ⟨software, code, long⟩ := missing
  have named : Names sealed .aes256Gcm := ⟨by show 13 < _; omega, code⟩
  have whole : ¬((sealed.drop (Suite.aes256Gcm.nonceLen + 1)).length < TAG_LEN ∨
      (sealed.take Suite.aes256Gcm.nonceLen).length ≠ Suite.aes256Gcm.nonceLen) := by
    rw [List.length_drop, List.length_take, TAG_LEN, Suite.nonceLen]
    omega
  have absent : ¬ Suite.aes256Gcm.isAvailable target = true := Bool.eq_false_iff.mp software
  rw [decrypt, decryptWith_of_names named, Suite.open_eq]
  simp only [if_neg whole, if_pos absent]
  rfl

end Failures

section RoundTrip

variable (target : Target) (key : Key) (plaintext context : Bytes)

/-- What sealing leaves. -/
theorem sealed_eq {suite : Suite} {nonce : Bytes} (length : nonce.length = suite.nonceLen)
    (available : suite.isAvailable target = true) {sealed : Bytes}
    (ran : (suite.«seal» target key.secret nonce context plaintext : Id (Except AeadError Bytes)) = .ok sealed) :
    suite.encrypt key.secret nonce plaintext ++
      suite.tagOf key.secret nonce context (suite.encrypt key.secret nonce plaintext) = sealed := by
  have able : nonce.length = suite.nonceLen ∧ suite.isAvailable target = true := ⟨length, available⟩
  rw [Suite.seal_eq, if_pos able] at ran
  exact Except.ok.inj ran

/-- A sealed text holds a tag at least. -/
theorem sealed_length {suite : Suite} {nonce : Bytes} (length : nonce.length = suite.nonceLen)
    (available : suite.isAvailable target = true) {sealed : Bytes}
    (ran : (suite.«seal» target key.secret nonce context plaintext : Id (Except AeadError Bytes)) = .ok sealed) :
    16 ≤ sealed.length := by
  rw [← sealed_eq target key plaintext context length available ran, List.length_append, Suite.tagOf_length]
  exact Nat.le_add_left _ _

/-- A sealed text opens under its own suite. -/
theorem open_sealed {suite : Suite} {nonce : Bytes} (length : nonce.length = suite.nonceLen)
    (available : suite.isAvailable target = true) {sealed : Bytes}
    (ran : (suite.«seal» target key.secret nonce context plaintext : Id (Except AeadError Bytes)) = .ok sealed) :
    (suite.«open» target key.secret nonce context sealed : Id (Except AeadError Bytes)) = .ok plaintext ∧ sealed ≠ [] := by
  have long := sealed_length target key plaintext context length available ran
  have whole : ¬(sealed.length < TAG_LEN ∨ nonce.length ≠ suite.nonceLen) :=
    not_or.mpr ⟨Nat.not_lt.mpr long, not_not.mpr length⟩
  constructor
  · have parts := sealed_eq target key plaintext context length available ran
    have tag := suite.tagOf_length key.secret nonce context (suite.encrypt key.secret nonce plaintext)
    have split : sealed.length - TAG_LEN = (suite.encrypt key.secret nonce plaintext).length := by
      rw [← parts, List.length_append, tag, Nat.add_sub_cancel]
    rw [Suite.open_eq]
    simp only [split]
    rw [if_neg whole, if_neg (not_not.mpr available), ← parts, List.take_left, List.drop_left, if_pos rfl,
      Suite.encrypt_encrypt]
    rfl
  · rintro rfl
    cases long

theorem fastestAvailable_isAvailable : (Suite.fastestAvailable target).isAvailable target = true := by
  rw [Suite.fastestAvailable]
  by_cases aes : target.aesAvailable = true
  · rw [if_pos aes]
    exact aes
  · rw [if_neg aes]
    rfl

/-- What encryption writes. -/
theorem encrypt_eq_ok {source source' : Entropy} {out : Bytes} :
    key.encrypt target plaintext context source = .ok (out, source') ↔
      ∃ nonce sealed, source 0 (Suite.fastestAvailable target).nonceLen = some nonce ∧
        ((Suite.fastestAvailable target).«seal» target key.secret nonce.toList context plaintext :
          Id (Except AeadError Bytes)) = .ok sealed ∧
        out = nonce.toList ++ [(Suite.fastestAvailable target).code] ++ sealed ∧
        (fun call => source (call + 1)) = source' := by
  unfold encrypt
  constructor
  · intro ran
    obtain ⟨nonce, mid, drawn, ran⟩ := Process.bind_eq_ok.mp ran
    obtain ⟨sealed, after, opened, ran⟩ := Process.bind_eq_ok.mp ran
    obtain ⟨written, rfl⟩ := Process.pure_eq_ok.mp ran
    obtain ⟨closed, rfl⟩ := Process.embed_eq_ok.mp opened
    unfold Entropy.fill at drawn
    cases answer : source 0 (Suite.fastestAvailable target).nonceLen with
    | none =>
        rw [answer] at drawn
        cases drawn
    | some bytes =>
        rw [answer] at drawn
        cases drawn
        exact ⟨nonce, sealed, rfl, mapError_eq_ok.mp closed, written.symm, rfl⟩
  · rintro ⟨nonce, sealed, drawn, opened, rfl, rfl⟩
    apply Process.bind_eq_ok.mpr
    refine ⟨nonce, fun call => source (call + 1), ?_, ?_⟩
    · rw [Entropy.fill, drawn]
    · apply Process.bind_eq_ok.mpr
      exact ⟨sealed, _, Process.embed_eq_ok.mpr ⟨mapError_eq_ok.mpr opened, rfl⟩, rfl⟩

/-- A written text is read under its own suite, unless another one comes first. -/
theorem decrypt_written {suite : Suite} {nonce body : Bytes} (length : nonce.length = suite.nonceLen) (nonempty : body ≠ [])
    (first : suite = .aes256Gcm ∨ suite = .xChaCha20Poly1305 ∧ nonce[12]? ≠ some 1) :
    key.decrypt target (nonce ++ [suite.code] ++ body) context =
      (suite.«open» target key.secret nonce context body : Id (Except AeadError Bytes)).run.mapError CryptoError.ofAead := by
  obtain ⟨named, head, tail⟩ := names_append length nonempty
  rcases first with rfl | ⟨rfl, other⟩
  · rw [decrypt, decryptWith_of_names named, head, tail]
  · have inside : 12 < nonce.length := length ▸ (by decide : 12 < 24)
    have elsewhere : ¬ Names (nonce ++ [Suite.xChaCha20Poly1305.code] ++ body) .aes256Gcm := by
      intro here
      have code : (nonce ++ [Suite.xChaCha20Poly1305.code] ++ body)[12]? = some 1 := here.2
      rw [List.append_assoc, List.getElem?_append_left inside] at code
      exact other code
    rw [decrypt, decryptWith_of_not_names elsewhere, decryptWith_of_names named, head, tail]

/-- Decryption undoes encryption, for one source of randomness. -/
def RoundTrips (source : Entropy) : Prop :=
  ∀ sealed rest, key.encrypt target plaintext context source = .ok (sealed, rest) →
    key.decrypt target sealed context = .ok plaintext

/-- Where the machine has no AES instructions, a nonce whose 13th byte is the code of the
    suite that needs them is taken for the header of that suite. -/
theorem RoundTrips.harmless {source : Entropy} (round : RoundTrips target key plaintext context source) :
    target.aesAvailable = true ∨
      ∀ nonce, source 0 (Suite.fastestAvailable target).nonceLen = some nonce → nonce.toList[12]? ≠ some 1 := by
  have available := fastestAvailable_isAvailable target
  by_contra broken
  obtain ⟨software, misread⟩ := not_or.mp broken
  push Not at misread
  obtain ⟨nonce, drawn, code⟩ := misread
  have length : nonce.toList.length = (Suite.fastestAvailable target).nonceLen := Vector.length_toList
  obtain ⟨sealed, closed⟩ : ∃ sealed, ((Suite.fastestAvailable target).«seal» target key.secret nonce.toList context
      plaintext : Id (Except AeadError Bytes)) = .ok sealed := by
    rw [Suite.seal_eq, if_pos ⟨length, available⟩]
    exact ⟨_, rfl⟩
  have opens := round _ _ ((encrypt_eq_ok target key plaintext context).mpr ⟨nonce, sealed, drawn, closed, rfl, rfl⟩)
  have missing : NamesMissing target (nonce.toList ++ [(Suite.fastestAvailable target).code] ++ sealed) := by
    have long := sealed_length target key plaintext context length available closed
    have fast : (Suite.fastestAvailable target).nonceLen = 24 := by
      rw [Suite.fastestAvailable, if_neg software, Suite.nonceLen]
    refine ⟨Bool.eq_false_iff.mpr software, ?_, ?_⟩
    · rw [List.append_assoc, List.getElem?_append_left (by omega), code]
    · simp only [List.length_append, List.length_singleton]
      omega
  rw [decrypt_of_namesMissing target key _ context missing] at opens
  cases opens

/-- Decryption undoes encryption exactly where that byte is another one, or AES is there. -/
theorem roundTrips_iff (source : Entropy) :
    RoundTrips target key plaintext context source ↔
      target.aesAvailable = true ∨
        ∀ nonce, source 0 (Suite.fastestAvailable target).nonceLen = some nonce → nonce.toList[12]? ≠ some 1 := by
  have available := fastestAvailable_isAvailable target
  constructor
  · exact RoundTrips.harmless target key plaintext context
  · intro condition sealed rest ran
    obtain ⟨nonce, body, drawn, closed, rfl, -⟩ := (encrypt_eq_ok target key plaintext context).mp ran
    have length : nonce.toList.length = (Suite.fastestAvailable target).nonceLen := Vector.length_toList
    obtain ⟨opens, nonempty⟩ := open_sealed target key plaintext context length available closed
    have first : Suite.fastestAvailable target = .aes256Gcm ∨
        Suite.fastestAvailable target = .xChaCha20Poly1305 ∧ nonce.toList[12]? ≠ some 1 := by
      by_cases hardware : target.aesAvailable = true
      · exact .inl (if_pos hardware)
      · exact .inr ⟨if_neg hardware, (condition.resolve_left hardware) nonce drawn⟩
    rw [decrypt_written target key context length nonempty first, opens]
    rfl

/-- A nonce that a machine without AES instructions draws, and cannot open what it sealed. -/
theorem not_roundTrips :
    ¬ RoundTrips .portable ⟨.replicate 32 0⟩ [] []
      (fun _ _ => some (Vector.ofFn fun i => if i.val = 12 then 1 else 0)) := by
  intro round
  cases RoundTrips.harmless .portable ⟨.replicate 32 0⟩ [] [] round with
  | inl hardware => cases hardware
  | inr harmless => exact harmless _ rfl (by decide)

end RoundTrip

section Undistinguished

variable (target : Target)

/-- Decryption returns a text or the one opaque error. -/
def Undistinguished (key : Key) (sealed context : Bytes) : Prop :=
  (∃ plaintext, key.decrypt target sealed context = .ok plaintext) ∨
    key.decrypt target sealed context = .error .unauthenticated

theorem Undistinguished.not_namesMissing {key : Key} {sealed context : Bytes}
    (outcome : Undistinguished target key sealed context) : ¬ NamesMissing target sealed := by
  intro missing
  have failed := decrypt_of_namesMissing target key sealed context missing
  cases outcome with
  | inl opened =>
      obtain ⟨plaintext, opened⟩ := opened
      cases failed.symm.trans opened
  | inr rejected => cases failed.symm.trans rejected

/-- What a failure says. -/
theorem decrypt_error_iff {key : Key} {sealed context : Bytes} {e : CryptoError}
    (failed : key.decrypt target sealed context = .error e) :
    (e = .unsupported ∧ NamesMissing target sealed) ∨ (e = .unauthenticated ∧ ¬ NamesMissing target sealed) := by
  by_cases missing : NamesMissing target sealed
  · have unsupported := decrypt_of_namesMissing target key sealed context missing
    cases failed.symm.trans unsupported
    exact .inl ⟨rfl, missing⟩
  · rcases decrypt_error target key sealed context failed with same | ⟨-, named⟩
    · exact .inr ⟨same, missing⟩
    · exact absurd named missing

/-- The error is the opaque one exactly when the text does not name the suite that the
    machine cannot run, and two failures are alike exactly when both texts do or neither. -/
theorem decrypt_undistinguished_iff :
    (∀ key sealed context, Undistinguished target key sealed context ↔
      target.aesAvailable = true ∨ sealed.length < 29 ∨ sealed[12]? ≠ some 1) ∧
    ∀ key sealed context key' sealed' context' e e', decrypt target key sealed context = .error e →
      decrypt target key' sealed' context' = .error e' →
      (e = e' ↔ (NamesMissing target sealed ↔ NamesMissing target sealed')) := by
  constructor
  · intro key sealed context
    constructor
    · intro outcome
      by_contra other
      obtain ⟨software, long, code⟩ := not_or.mp other |>.imp id not_or.mp
      exact outcome.not_namesMissing target ⟨Bool.eq_false_iff.mpr software, not_not.mp code, Nat.not_lt.mp long⟩
    · intro condition
      have ordinary : ¬ NamesMissing target sealed := by
        rintro ⟨software, code, long⟩
        rcases condition with hardware | short | other
        · cases hardware.symm.trans software
        · exact absurd short (Nat.not_lt.mpr long)
        · exact other code
      cases outcome : key.decrypt target sealed context with
      | ok plaintext => exact .inl ⟨plaintext, outcome⟩
      | error e =>
          rcases decrypt_error target key sealed context outcome with rfl | ⟨-, missing⟩
          · exact .inr outcome
          · exact absurd missing ordinary
  · intro key sealed context key' sealed' context' e e' failed failed'
    rcases decrypt_error_iff target failed with ⟨rfl, missing⟩ | ⟨rfl, ordinary⟩
    · rcases decrypt_error_iff target failed' with ⟨rfl, missing'⟩ | ⟨rfl, ordinary'⟩
      · exact iff_of_true rfl (iff_of_true missing missing')
      · exact iff_of_false CryptoError.noConfusion fun same => ordinary' (same.mp missing)
    · rcases decrypt_error_iff target failed' with ⟨rfl, missing'⟩ | ⟨rfl, ordinary'⟩
      · exact iff_of_false CryptoError.noConfusion fun same => ordinary (same.mpr missing')
      · exact iff_of_true rfl (iff_of_false ordinary ordinary')

/-- Two truncated texts fail alike. -/
theorem truncated_undistinguished :
    CryptoError.unauthenticated = .unauthenticated ↔ (NamesMissing .portable [] ↔ NamesMissing .portable [0]) :=
  (decrypt_undistinguished_iff .portable).2 ⟨.replicate 32 0⟩ [] [] ⟨.replicate 32 1⟩ [0] [1] .unauthenticated .unauthenticated
    rfl rfl

/-- A text that was cut short and one with its code changed, told apart. -/
theorem not_undistinguished :
    decrypt .portable ⟨.replicate 32 0⟩ [] [] = .error .unauthenticated ∧
      decrypt .portable ⟨.replicate 32 0⟩ (List.replicate 12 0 ++ [1] ++ List.replicate 16 0) [] = .error .unsupported ∧
      ¬ Undistinguished .portable ⟨.replicate 32 0⟩ (List.replicate 12 0 ++ [1] ++ List.replicate 16 0) [] := by
  have missing : NamesMissing .portable (List.replicate 12 0 ++ [1] ++ List.replicate 16 0) := ⟨rfl, rfl, by decide⟩
  refine ⟨rfl, decrypt_of_namesMissing _ _ _ _ missing, ?_⟩
  intro outcome
  exact outcome.not_namesMissing .portable missing

end Undistinguished

end Key

end Blindplane.Crypto
