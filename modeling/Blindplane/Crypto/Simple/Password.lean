import Blindplane.Crypto.Argon2.Argon2id
import Blindplane.Crypto.Choice
import Blindplane.Crypto.Simple.Key
import Blindplane.Lib.Text
import Blindplane.Lib.Utf8

/-! # Stored passwords

A stored password describes itself: the cost parameters, the salt and the hash, in text. The
text comes from where somebody else can write, so that verification must end in an answer
for any text whatever.
-/

namespace Blindplane.Crypto

open Lib Checked Argon2
open Utf8 (asBytes)

namespace Password

section Routines

/-- Length of the random salt stored alongside a password hash. -/
def SALT_LEN : Nat := 16

/-- Length of the derived password hash. -/
def HASH_LEN : Nat := 32

/-- What becomes of a text: it is refused without a reason, or reading it panics. -/
abbrev Parsing := Except (Fault Unit)

/-- `?` on something that may be missing. -/
def orRefuse {α : Type} (value : Option α) : Parsing α := okOr value (.error ())

/-- An index that must be in range. -/
def orPanic {α : Type} (value : Option α) : Parsing α := okOr value (.panic .internal)

def DIGITS : Bytes := asBytes "0123456789abcdef"

def hex (bytes : Bytes) : Bytes :=
  bytes.flatMap fun byte : UInt8 => [DIGITS.getD (byte >>> 4).toNat 0, DIGITS.getD (byte &&& 15).toNat 0]

/-- The byte of two characters. -/
def unhexByte (bytes : Bytes) (i : Nat) : Parsing UInt8 := do
  let hi ← orRefuse (Text.toDigit 16 (← orPanic bytes[i * 2]?))
  let lo ← orRefuse (Text.toDigit 16 (← orPanic bytes[i * 2 + 1]?))
  return UInt8.ofNat ((hi <<< 4) ||| lo)

def unhex (text : Bytes) : Parsing Bytes := do
  rejectIf (text.length % 2 ≠ 0 ∨ text = []) (.error ())
  (List.range (text.length / 2)).mapM (unhexByte text)

/-- `split_once('=')`. -/
def splitOnce (text : Bytes) : Option (Bytes × Bytes) :=
  if 61 ∈ text then some (text.takeWhile (· ≠ 61), (text.dropWhile (· ≠ 61)).drop 1) else none

/-- One of the settings `m`, `t` and `p`. Later ones count, and there need not be any. -/
def parseSetting (costs : UInt32 × UInt32) (setting : Bytes) : Parsing (UInt32 × UInt32) := do
  let (name, value) ← orRefuse (splitOnce setting)
  if name = asBytes "m" then return (UInt32.ofNat (← orRefuse (Text.parseUnsigned 32 value)), costs.2)
  else if name = asBytes "t" then return (costs.1, UInt32.ofNat (← orRefuse (Text.parseUnsigned 32 value)))
  else if name = asBytes "p" then
    if value = asBytes "1" then return costs else throw (.error ())
  else throw (.error ())

def parseStored (stored : Bytes) : Parsing (Bytes × Bytes × Argon2Params) := do
  let parts := stored.splitOn 36
  rejectIf (parts[0]? ≠ some (asBytes "argon2id")) (.error ())
  rejectIf (parts[1]? ≠ some (asBytes "v=19")) (.error ())
  let settings ← orRefuse parts[2]?
  let (memoryKib, passes) ← (settings.splitOn 44).foldlM parseSetting (0, 0)
  let salt ← unhex (← orRefuse parts[3]?)
  let expected ← unhex (← orRefuse parts[4]?)
  rejectIf (parts[5]?.isSome ∨ salt.length < 8 ∨ expected = []) (.error ())
  return (salt, expected, { memoryKib, passes, outputLen := HASH_LEN })

/-- Check a password against a stored hash. -/
def verifyPassword (password stored : Bytes) : Option Bool :=
  match parseStored stored with
  | .error (.panic _) => none
  | .error (.error _) => some false
  | .ok (salt, expected, params) => do
      match ← argon2id password salt params with
      | .error _ => return false
      | .ok derived => return (ctEqBytes derived expected).isSet

/-- The text that carries the parameters, the salt and the hash. -/
def storedText (params : Argon2Params) (salt hash : Bytes) : Bytes :=
  asBytes "argon2id$v=19$m=" ++ Text.decimal params.memoryKib.toNat ++ asBytes ",t=" ++
    Text.decimal params.passes.toNat ++ asBytes ",p=1$" ++ hex salt ++ asBytes "$" ++ hex hash

/-- Hash a password for storage. -/
def hashPassword (password : Bytes) : Process Entropy (Fault CryptoError) Bytes := do
  let salt ← Entropy.fill (.error .randomness) SALT_LEN
  let params := Argon2Params.default
  match argon2id password salt.toList params with
  | none => throw (.panic .internal)
  | some (.error _) => throw (.error .invalidParameters)
  | some (.ok hash) => return storedText params salt.toList hash

end Routines

section Safety

/-- Anything but a panic. -/
def NoPanic {ε : Type} (fault : Fault ε) : Prop := ∀ site, fault ≠ .panic site

theorem noPanic_error {ε : Type} (e : ε) : NoPanic (.error e) := nofun

theorem unhexByte_noPanic {text : Bytes} {i : Nat} (inside : i * 2 + 1 < text.length) :
    Raises NoPanic (unhexByte text i) := by
  have inRange {j : Nat} (below : j < text.length) : Raises NoPanic (orPanic text[j]?) := by
    rw [orPanic, List.getElem?_eq_getElem below]
    exact Raises.ok _
  have digit (character : UInt8) : Raises NoPanic (orRefuse (Text.toDigit 16 character)) :=
    Raises.okOr (noPanic_error ())
  rw [unhexByte]
  apply Raises.bind (inRange (by omega))
  intro first _
  apply Raises.bind (digit first)
  intro hi _
  apply Raises.bind (inRange inside)
  intro second _
  apply Raises.bind (digit second)
  intro lo _
  exact Raises.pure _

theorem unhex_noPanic (text : Bytes) : Raises NoPanic (unhex text) := by
  rw [unhex]
  apply Raises.bind (Raises.rejectIf (noPanic_error ()))
  intro _ _
  apply Raises.mapM
  intro i member
  have below := List.mem_range.mp member
  exact unhexByte_noPanic (by omega)

theorem parseSetting_noPanic (costs : UInt32 × UInt32) (setting : Bytes) : Raises NoPanic (parseSetting costs setting) := by
  rw [parseSetting]
  apply Raises.bind (Raises.okOr (noPanic_error ()))
  intro parts _
  obtain ⟨name, value⟩ := parts
  have number : Raises NoPanic (orRefuse (Text.parseUnsigned 32 value)) := Raises.okOr (noPanic_error ())
  dsimp only
  split
  · exact Raises.bind number fun _ _ => Raises.pure _
  · split
    · exact Raises.bind number fun _ _ => Raises.pure _
    · split
      · split
        · exact Raises.pure _
        · exact Raises.throw (noPanic_error ())
      · exact Raises.throw (noPanic_error ())

theorem parseStored_noPanic (stored : Bytes) : Raises NoPanic (parseStored stored) := by
  have refuse {α : Type} (value : Option α) : Raises NoPanic (orRefuse value) := Raises.okOr (noPanic_error ())
  rw [parseStored]
  apply Raises.bind (Raises.rejectIf (noPanic_error ()))
  intro _ _
  apply Raises.bind (Raises.rejectIf (noPanic_error ()))
  intro _ _
  apply Raises.bind (refuse _)
  intro settings _
  apply Raises.bind (Raises.foldlM parseSetting_noPanic _ _)
  intro costs _
  apply Raises.bind (refuse _)
  intro salt _
  apply Raises.bind (unhex_noPanic salt)
  intro _ _
  apply Raises.bind (refuse _)
  intro expected _
  apply Raises.bind (unhex_noPanic expected)
  intro _ _
  apply Raises.bind (Raises.rejectIf (noPanic_error ()))
  intro _ _
  exact Raises.pure _

theorem parseStored_outputLen {stored salt expected : Bytes} {params : Argon2Params}
    (parsed : parseStored stored = .ok (salt, expected, params)) : params.outputLen = HASH_LEN := by
  simp only [parseStored, bind_eq_ok, pure_eq_ok, Prod.mk.injEq] at parsed
  obtain ⟨_, _, _, _, _, _, _, _, _, _, _, _, _, _, _, _, _, _, _, _, rfl⟩ := parsed
  rfl

/-- Argon2id ends whatever the parameters, as long as their output length is a machine size. -/
theorem argon2id_some (password salt : Bytes) {params : Argon2Params} (short : params.outputLen < 2 ^ 64) :
    ∃ result, argon2id password salt params = some result := by
  by_cases valid : Valid salt params
  · exact ⟨_, argon2id_eq valid short⟩
  · exact ⟨_, if_pos (not_not.mp (mt valid_iff.mpr valid))⟩

theorem verifyPassword_some (password stored : Bytes) : ∃ verdict, verifyPassword password stored = some verdict := by
  cases parsed : parseStored stored with
  | error fault =>
      cases fault with
      | panic => exact absurd rfl (parseStored_noPanic stored _ parsed _)
      | error _ => exact ⟨false, by rw [verifyPassword, parsed]⟩
  | ok result =>
      obtain ⟨salt, expected, params⟩ := result
      have short : params.outputLen < 2 ^ 64 := by
        rw [parseStored_outputLen parsed]
        decide
      obtain ⟨derived, ran⟩ := argon2id_some password salt short
      cases derived with
      | error _ => exact ⟨false, by simp [verifyPassword, parsed, ran]⟩
      | ok derived => exact ⟨_, by simp [verifyPassword, parsed, ran]; rfl⟩

end Safety

section RoundTrip

theorem digits_eq : DIGITS = [48, 49, 50, 51, 52, 53, 54, 55, 56, 57, 97, 98, 99, 100, 101, 102] := rfl

/-- A digit is read back, and is neither a separator nor a sign. -/
theorem toDigit_digits : ∀ nibble < 16, Text.toDigit 16 (DIGITS.getD nibble 0) = some nibble ∧ DIGITS.getD nibble 0 ≠ 36 := by
  rw [digits_eq]
  decide

theorem nibbles (byte : UInt8) :
    (byte >>> 4).toNat < 16 ∧ (byte &&& 15).toNat < 16 ∧
      UInt8.ofNat (((byte >>> 4).toNat <<< 4) ||| (byte &&& 15).toNat) = byte := by
  have all : ∀ n < 256, (UInt8.ofNat n >>> 4).toNat < 16 ∧ (UInt8.ofNat n &&& 15).toNat < 16 ∧
      UInt8.ofNat (((UInt8.ofNat n >>> 4).toNat <<< 4) ||| (UInt8.ofNat n &&& 15).toNat) = UInt8.ofNat n := by
    decide +kernel
  have here := all byte.toNat byte.toNat_lt
  rwa [UInt8.ofNat_toNat] at here

theorem hex_cons (byte : UInt8) (rest : Bytes) :
    hex (byte :: rest) = DIGITS.getD (byte >>> 4).toNat 0 :: DIGITS.getD (byte &&& 15).toNat 0 :: hex rest := rfl

theorem hex_length (bytes : Bytes) : (hex bytes).length = 2 * bytes.length := by
  induction bytes with
  | nil => rfl
  | cons byte rest ih =>
      rw [hex_cons]
      simp only [List.length_cons, ih]
      omega

theorem not_mem_hex (bytes : Bytes) : (36 : UInt8) ∉ hex bytes := by
  induction bytes with
  | nil => nofun
  | cons byte rest ih =>
      obtain ⟨high, low, -⟩ := nibbles byte
      rw [hex_cons]
      simp only [List.mem_cons, not_or]
      exact ⟨(toDigit_digits _ high).2.symm, (toDigit_digits _ low).2.symm, ih⟩

theorem getElem?_hex (bytes : Bytes) (i : Nat) :
    (hex bytes)[i * 2]? = bytes[i]?.map (fun byte : UInt8 => DIGITS.getD (byte >>> 4).toNat 0) ∧
      (hex bytes)[i * 2 + 1]? = bytes[i]?.map (fun byte : UInt8 => DIGITS.getD (byte &&& 15).toNat 0) := by
  induction bytes generalizing i with
  | nil => simp [hex]
  | cons byte rest ih =>
      rw [hex_cons]
      cases i with
      | zero => simp
      | succ i =>
          have even : (i + 1) * 2 = i * 2 + 1 + 1 := by omega
          simp only [even, List.getElem?_cons_succ]
          exact ih i

theorem unhexByte_hex (bytes : Bytes) {i : Nat} (inside : i < bytes.length) : unhexByte (hex bytes) i = .ok bytes[i] := by
  obtain ⟨first, second⟩ := getElem?_hex bytes i
  obtain ⟨high, low, whole⟩ := nibbles bytes[i]
  rw [List.getElem?_eq_getElem inside, Option.map_some] at first second
  simp only [unhexByte, orPanic, orRefuse, first, second, okOr, bind, Except.bind, (toDigit_digits _ high).1,
    (toDigit_digits _ low).1, whole]
  rfl

theorem mapM_range_ok {ε α : Type} {f : Nat → Except ε α} (list : List α) (each : ∀ i, (inside : i < list.length) → f i = .ok list[i]) :
    (List.range list.length).mapM f = .ok list := by
  induction list generalizing f with
  | nil => rfl
  | cons a rest ih =>
      have later := ih (f := fun i => f (i + 1)) fun i inside => each (i + 1) (Nat.succ_lt_succ inside)
      have first := each 0 (Nat.zero_lt_succ _)
      rw [List.length_cons, List.range_succ_eq_map, List.mapM_cons, first]
      simp only [bind, Except.bind, List.mapM_map]
      have same : (f ∘ Nat.succ) = fun i => f (i + 1) := rfl
      rw [same, later]
      rfl

theorem unhex_hex {bytes : Bytes} (nonempty : bytes ≠ []) : unhex (hex bytes) = .ok bytes := by
  have length := hex_length bytes
  have some_bytes := List.length_pos_iff.mpr nonempty
  have half : (hex bytes).length / 2 = bytes.length := by omega
  have fine : ¬ ((hex bytes).length % 2 ≠ 0 ∨ hex bytes = []) := by
    rintro (odd | empty)
    · omega
    · rw [empty] at length
      simp only [List.length_nil] at length
      omega
  rw [unhex, rejectIf_bind_of_not fine, half]
  exact mapM_range_ok bytes fun i inside => unhexByte_hex bytes inside

/-- The first equals sign separates. -/
theorem splitOnce_append {name : Bytes} (plain : (61 : UInt8) ∉ name) (value : Bytes) :
    splitOnce (name ++ 61 :: value) = some (name, value) := by
  have inside : (61 : UInt8) ∈ name ++ 61 :: value := List.mem_append_right _ List.mem_cons_self
  have other : ∀ character ∈ name, decide (character ≠ 61) = true := by
    intro character member
    exact decide_eq_true fun same => plain (same ▸ member)
  rw [splitOnce, if_pos inside, List.takeWhile_append_of_pos other, List.dropWhile_append_of_pos other]
  simp

theorem not_mem_decimal {separator : UInt8} (other : ∀ digit < 10, separator ≠ UInt8.ofNat (48 + digit)) (n : Nat) :
    separator ∉ Text.decimal n := by
  intro member
  obtain ⟨digit, below, same⟩ := Text.mem_decimal member
  exact other digit below same

/-- The settings, as they are stored. -/
def settings (params : Argon2Params) : List Bytes :=
  [[109, 61] ++ Text.decimal params.memoryKib.toNat, [116, 61] ++ Text.decimal params.passes.toNat, [112, 61, 49]]

theorem foldlM_settings (params : Argon2Params) :
    (settings params).foldlM parseSetting (0, 0) = .ok (params.memoryKib, params.passes) := by
  have m : asBytes "m" = [109] := rfl
  have t : asBytes "t" = [116] := rfl
  have p : asBytes "p" = [112] := rfl
  have one : asBytes "1" = [49] := rfl
  have memory : splitOnce ([109, 61] ++ Text.decimal params.memoryKib.toNat) = some ([109], Text.decimal params.memoryKib.toNat) :=
    @splitOnce_append [109] (by decide) _
  have passes : splitOnce ([116, 61] ++ Text.decimal params.passes.toNat) = some ([116], Text.decimal params.passes.toNat) :=
    @splitOnce_append [116] (by decide) _
  have lanes : splitOnce [112, 61, 49] = some ([112], [49]) := @splitOnce_append [112] (by decide) [49]
  have first : parseSetting (0, 0) ([109, 61] ++ Text.decimal params.memoryKib.toNat) = .ok (params.memoryKib, 0) := by
    simp only [parseSetting, orRefuse, memory, okOr, bind, Except.bind, m, if_true,
      Text.parseUnsigned_decimal params.memoryKib.toNat_lt, UInt32.ofNat_toNat]
    rfl
  have second : parseSetting (params.memoryKib, 0) ([116, 61] ++ Text.decimal params.passes.toNat) =
      .ok (params.memoryKib, params.passes) := by
    have other : ([116] : Bytes) ≠ [109] := by decide
    simp only [parseSetting, orRefuse, passes, okOr, bind, Except.bind, m, t, if_neg other, if_true,
      Text.parseUnsigned_decimal params.passes.toNat_lt, UInt32.ofNat_toNat]
    rfl
  have third : parseSetting (params.memoryKib, params.passes) [112, 61, 49] = .ok (params.memoryKib, params.passes) := by
    have other : ([112] : Bytes) ≠ [109] := by decide
    have other' : ([112] : Bytes) ≠ [116] := by decide
    simp only [parseSetting, orRefuse, lanes, okOr, bind, Except.bind, m, t, p, one, if_neg other, if_neg other', if_true]
    rfl
  simp only [settings, List.foldlM_cons, List.foldlM_nil, first, second, third, bind, Except.bind]
  rfl

theorem settings_plain {separator : UInt8} (other : ∀ digit < 10, separator ≠ UInt8.ofNat (48 + digit))
    (letters : separator ∉ [109, 61, 116, 112, 49]) (params : Argon2Params) : ∀ setting ∈ settings params, separator ∉ setting := by
  have memory := not_mem_decimal other params.memoryKib.toNat
  have passes := not_mem_decimal other params.passes.toNat
  simp only [List.mem_cons, List.not_mem_nil, or_false, not_or] at letters
  simp [settings, memory, passes, letters]

/-- The parts of a stored password. -/
theorem storedText_eq (params : Argon2Params) (salt hash : Bytes) :
    storedText params salt hash = [36].intercalate
      [asBytes "argon2id", asBytes "v=19", [44].intercalate (settings params), hex salt, hex hash] := by
  have head : asBytes "argon2id$v=19$m=" = asBytes "argon2id" ++ 36 :: (asBytes "v=19" ++ [36, 109, 61]) := rfl
  have second : asBytes ",t=" = [44, 116, 61] := rfl
  have third : asBytes ",p=1$" = [44, 112, 61, 49, 36] := rfl
  have separator : asBytes "$" = [36] := rfl
  rw [storedText, head, second, third, separator]
  simp [List.intercalate_cons_cons, settings]

/-- Reading a stored password gives what was stored; the length of the hash is that of new
    ones. -/
theorem parseStored_storedText (params : Argon2Params) {salt hash : Bytes} (salted : 8 ≤ salt.length) (nonempty : hash ≠ []) :
    parseStored (storedText params salt hash) =
      .ok (salt, hash, { params with outputLen := HASH_LEN }) := by
  have digits : ∀ separator ∈ [(36 : UInt8), 44], ∀ digit < 10, separator ≠ UInt8.ofNat (48 + digit) := by
    decide +kernel
  have dollar_settings := settings_plain (digits 36 (by decide)) (by decide) params
  have comma_settings := settings_plain (digits 44 (by decide)) (by decide) params
  have names : (36 : UInt8) ∉ asBytes "argon2id" ∧ (36 : UInt8) ∉ asBytes "v=19" := by decide +kernel
  have plain : ∀ part ∈ [asBytes "argon2id", asBytes "v=19", [44].intercalate (settings params), hex salt, hex hash],
      (36 : UInt8) ∉ part := by
    have middle : (36 : UInt8) ∉ [44].intercalate (settings params) := by
      simpa [settings, List.intercalate_cons_cons] using dollar_settings
    simp [names, middle, not_mem_hex]
  have parts := List.splitOn_intercalate 36 plain (List.cons_ne_nil _ _)
  have pieces := List.splitOn_intercalate 44 comma_settings (List.cons_ne_nil _ _)
  have some_salt : salt ≠ [] := List.ne_nil_of_length_pos (by omega)
  have short : ¬ salt.length < 8 := by omega
  rw [parseStored, storedText_eq, parts]
  simp [rejectIf, orRefuse, okOr, bind, Except.bind, pieces, foldlM_settings, unhex_hex some_salt, unhex_hex nonempty, short, nonempty]

/-- Any salt hashes any password. -/
theorem exists_hash (password : Bytes) (salt : Vector UInt8 SALT_LEN) :
    ∃ hash : Vector UInt8 HASH_LEN, argon2id password salt.toList .default = some (.ok hash.toList) := by
  have salted : 8 ≤ salt.toList.length := by
    rw [Vector.length_toList]
    decide
  have valid : Valid salt.toList .default := ⟨by decide, by decide, by decide, salted⟩
  have ran := @argon2id_eq password salt.toList .default valid (by decide)
  have length := tag_length password salt.toList Argon2Params.default.memoryKib.toNat Argon2Params.default.passes.toNat
    (by decide : 1 ≤ HASH_LEN) (by decide)
  refine ⟨fixed HASH_LEN (Rfc9106.tag password salt.toList Argon2Params.default.memoryKib.toNat
    Argon2Params.default.passes.toNat HASH_LEN), ?_⟩
  rw [fixed_toList length]
  exact ran

theorem hashPassword_eq {password hash : Bytes} {salt : Vector UInt8 SALT_LEN} {source : Entropy}
    (answered : source 0 SALT_LEN = some salt) (hashed : argon2id password salt.toList .default = some (.ok hash)) :
    hashPassword password source = .ok (storedText .default salt.toList hash, fun call => source (call + 1)) := by
  have drawn : (Entropy.fill (.error .randomness) SALT_LEN : Process Entropy (Fault CryptoError) _) source =
      .ok (salt, fun call => source (call + 1)) := by
    simp only [Entropy.fill, answered]
  show ((Entropy.fill (.error .randomness) SALT_LEN : Process Entropy (Fault CryptoError) _) source >>= _) = _
  rw [drawn]
  simp only [bind, Except.bind, hashed]
  rfl

theorem verifyPassword_storedText {password hash : Bytes} {salt : Vector UInt8 SALT_LEN} (nonempty : hash ≠ [])
    (hashed : argon2id password salt.toList .default = some (.ok hash)) :
    verifyPassword password (storedText .default salt.toList hash) = some true := by
  have salted : 8 ≤ salt.toList.length := by
    rw [Vector.length_toList]
    decide
  have parsed := parseStored_storedText .default salted nonempty
  have same : { Argon2Params.default with outputLen := HASH_LEN } = Argon2Params.default := rfl
  rw [same] at parsed
  simp [verifyPassword, parsed, hashed]

/-- Verification ends in an answer for every stored text; and of what hashing a password
    gives, reading takes back the salt, the hash and the parameters, so that the password
    verifies. -/
theorem verifyPassword_exact (password : Bytes) :
    (∀ stored, ∃ verdict, verifyPassword password stored = some verdict) ∧
    ∀ (salt : Vector UInt8 SALT_LEN) (source : Entropy), source 0 SALT_LEN = some salt →
      ∃ (hash : Vector UInt8 HASH_LEN) (text : Bytes),
        hashPassword password source = .ok (text, fun call => source (call + 1)) ∧
        parseStored text = .ok (salt.toList, hash.toList, .default) ∧ verifyPassword password text = some true := by
  constructor
  · exact verifyPassword_some password
  · intro salt source answered
    obtain ⟨hash, hashed⟩ := exists_hash password salt
    have length : hash.toList.length = HASH_LEN := hash.length_toList
    have nonempty : hash.toList ≠ [] := List.ne_nil_of_length_pos (by rw [length]; decide)
    have salted : 8 ≤ salt.toList.length := by
      rw [Vector.length_toList]
      decide
    exact ⟨hash, _, hashPassword_eq answered hashed, parseStored_storedText .default salted nonempty,
      verifyPassword_storedText nonempty hashed⟩

theorem verifyPassword_exact_zeros :
    ∃ text, hashPassword [] (fun _ n => some (.replicate n 0)) = .ok (text, fun _ n => some (.replicate n 0)) ∧
      verifyPassword [] text = some true := by
  obtain ⟨-, text, hashed, -, verified⟩ :=
    (verifyPassword_exact []).2 (.replicate SALT_LEN 0) (fun _ n => some (.replicate n 0)) rfl
  exact ⟨text, hashed, verified⟩

end RoundTrip

end Password

end Blindplane.Crypto
