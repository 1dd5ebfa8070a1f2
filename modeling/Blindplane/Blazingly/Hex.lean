import Blindplane.Blazingly.Codec
import Mathlib.Data.List.Induction

/-! # Hexadecimal

The text form of hashes and search tokens on the HTTP routes. Digits are written in lower
case and read in either.
-/

namespace Blindplane.Blazingly

open Lib

/-- The characters of hexadecimal, by value. -/
def DIGITS : Bytes := Utf8.asBytes "0123456789abcdef"

section Encode

/-- The character of a four-bit value. -/
def digit (value : Nat) : UInt8 := DIGITS.getD value 0

/-- Two characters for a byte. -/
def encodeByte (byte : UInt8) : Bytes := [digit (byte >>> 4).toNat, digit (byte &&& 15).toNat]

/-- Lowercase hexadecimal, unpadded. -/
def hexEncode (bytes : Bytes) : Bytes := bytes.flatMap encodeByte

end Encode

section Decode

/-- `char::to_digit(16)`. -/
def toDigit (character : UInt8) : Option Nat :=
  if 48 ≤ character ∧ character ≤ 57 then some (character - 48).toNat
  else if 97 ≤ character ∧ character ≤ 102 then some ((character - 97).toNat + 10)
  else if 65 ≤ character ∧ character ≤ 70 then some ((character - 65).toNat + 10)
  else none

/-- The byte of two characters. -/
def decodePair (pair : Bytes) : Option UInt8 := do
  let hi ← toDigit (pair.getD 0 0)
  let lo ← toDigit (pair.getD 1 0)
  return (UInt8.ofNat hi <<< 4) ||| UInt8.ofNat lo

/-- Hexadecimal, upper or lower case, or `none` for anything malformed. -/
def hexDecode (text : Bytes) : Option Bytes :=
  if text.length % 2 ≠ 0 then none else (chunks 2 text).mapM decodePair

end Decode

section Digits

/-- `0-9`, `a-f` or `A-F`. -/
def IsHexDigit (character : UInt8) : Prop :=
  (48 ≤ character ∧ character ≤ 57) ∨ (97 ≤ character ∧ character ≤ 102) ∨ (65 ≤ character ∧ character ≤ 70)

instance (character : UInt8) : Decidable (IsHexDigit character) :=
  inferInstanceAs (Decidable (_ ∨ _ ∨ _))

/-- A letter in lower case; other characters stay. -/
def lower (character : UInt8) : UInt8 := if 65 ≤ character ∧ character ≤ 90 then character + 32 else character

/-- Bytes are the numbers below 256. -/
theorem forall_byte {holds : UInt8 → Prop} (every : ∀ n < 256, holds (UInt8.ofNat n)) (byte : UInt8) : holds byte := by
  have here := every byte.toNat byte.toNat_lt
  rwa [UInt8.ofNat_toNat] at here

theorem toDigit_digit : ∀ v < 16, toDigit (digit v) = some v := by decide +kernel

/-- What a character is read as: the value that is written as it, in lower case. -/
theorem toDigit_eq (character : UInt8) :
    toDigit character =
      if IsHexDigit character then (List.range 16).find? fun v => digit v == lower character else none := by
  revert character
  exact forall_byte (by decide +kernel)

theorem toDigit_eq_some {character : UInt8} {v : Nat} (here : toDigit character = some v) :
    v < 16 ∧ digit v = lower character ∧ IsHexDigit character := by
  rw [toDigit_eq] at here
  split at here
  · next isDigit =>
    have inside := List.mem_of_find?_eq_some here
    have written := List.find?_some here
    rw [beq_iff_eq] at written
    exact ⟨List.mem_range.mp inside, written, isDigit⟩
  · cases here

theorem IsHexDigit.toDigit {character : UInt8} (isDigit : IsHexDigit character) :
    ∃ v, Blazingly.toDigit character = some v := by
  have every : ∀ character, IsHexDigit character → (Blazingly.toDigit character).isSome := forall_byte (by decide +kernel)
  exact Option.isSome_iff_exists.mp (every character isDigit)

/-- The halves of a byte, put together again. -/
theorem halves {hi lo : Nat} (highest : hi < 16) (lowest : lo < 16) :
    ((UInt8.ofNat hi <<< 4) ||| UInt8.ofNat lo).toNat = 16 * hi + lo := by
  have every : ∀ hi < 16, ∀ lo < 16, ((UInt8.ofNat hi <<< 4) ||| UInt8.ofNat lo).toNat = 16 * hi + lo := by
    decide +kernel
  exact every hi highest lo lowest

theorem byte_halves (byte : UInt8) : (byte >>> 4).toNat = byte.toNat / 16 ∧ (byte &&& 15).toNat = byte.toNat % 16 := by
  revert byte
  exact forall_byte (by decide +kernel)

end Digits

section Pairs

theorem decodePair_encodeByte (byte : UInt8) : decodePair (encodeByte byte) = some byte := by
  obtain ⟨high, low⟩ := byte_halves byte
  have below := byte.toNat_lt
  have hi := toDigit_digit (byte.toNat / 16) (by omega)
  have lo := toDigit_digit (byte.toNat % 16) (by omega)
  simp only [decodePair, encodeByte, List.getD_cons_zero, List.getD_cons_succ, high, low, hi, lo, Option.bind_eq_bind,
    Option.bind_some, Option.pure_def, Option.some.injEq]
  apply UInt8.toNat_inj.mp
  rw [halves (by omega) (by omega)]
  omega

/-- Two digits and nothing else are read, as the byte that is written as them. -/
theorem decodePair_eq_some {a b byte : UInt8} (decoded : decodePair [a, b] = some byte) :
    IsHexDigit a ∧ IsHexDigit b ∧ encodeByte byte = [lower a, lower b] := by
  simp only [decodePair, List.getD_cons_zero, List.getD_cons_succ, Option.bind_eq_bind, Option.bind_eq_some_iff,
    Option.pure_def, Option.some.injEq] at decoded
  obtain ⟨hi, first, lo, second, rfl⟩ := decoded
  obtain ⟨highest, high, isDigit⟩ := toDigit_eq_some first
  obtain ⟨lowest, low, isDigit'⟩ := toDigit_eq_some second
  obtain ⟨top, bottom⟩ := byte_halves ((UInt8.ofNat hi <<< 4) ||| UInt8.ofNat lo)
  have value := halves highest lowest
  have above : (16 * hi + lo) / 16 = hi := by omega
  have below : (16 * hi + lo) % 16 = lo := by omega
  refine ⟨isDigit, isDigit', ?_⟩
  rw [encodeByte, top, bottom, value, above, below, high, low]

theorem exists_decodePair {a b : UInt8} (first : IsHexDigit a) (second : IsHexDigit b) :
    ∃ byte, decodePair [a, b] = some byte := by
  obtain ⟨hi, high⟩ := first.toDigit
  obtain ⟨lo, low⟩ := second.toDigit
  refine ⟨(UInt8.ofNat hi <<< 4) ||| UInt8.ofNat lo, ?_⟩
  simp only [decodePair, List.getD_cons_zero, List.getD_cons_succ, high, low, Option.bind_eq_bind, Option.bind_some,
    Option.pure_def]

end Pairs

section Texts

theorem hexDecode_nil : hexDecode [] = some [] := by
  rw [hexDecode, chunks_nil]
  rfl

theorem hexDecode_cons_cons (a b : UInt8) (rest : Bytes) :
    hexDecode (a :: b :: rest) = do
      let byte ← decodePair [a, b]
      let bytes ← hexDecode rest
      return byte :: bytes := by
  have parity : (a :: b :: rest).length % 2 = rest.length % 2 := by
    rw [List.length_cons, List.length_cons]
    omega
  have two : [a, b].length = 2 := rfl
  have front : chunks 2 (a :: b :: rest) = [a, b] :: chunks 2 rest := chunks_block_append Nat.two_pos two rest
  rw [hexDecode, hexDecode, parity, front, List.mapM_cons]
  split
  · cases decodePair [a, b] <;> rfl
  · rfl

theorem hexDecode_hexEncode (bytes : Bytes) : hexDecode (hexEncode bytes) = some bytes := by
  induction bytes with
  | nil => exact hexDecode_nil
  | cons byte rest ih =>
      have pair := decodePair_encodeByte byte
      rw [encodeByte] at pair
      rw [hexEncode, List.flatMap_cons, ← hexEncode, encodeByte, List.cons_append, List.cons_append, List.nil_append,
        hexDecode_cons_cons, pair, ih]
      rfl

/-- A text that is read has an even number of characters, all of them digits, and is what
    its bytes are written as, but for the case. -/
theorem hexDecode_eq_some (text : Bytes) :
    ∀ {bytes : Bytes}, hexDecode text = some bytes →
      text.length % 2 = 0 ∧ (∀ character ∈ text, IsHexDigit character) ∧ hexEncode bytes = text.map lower := by
  induction text using List.twoStepInduction with
  | nil =>
      intro bytes decoded
      rw [hexDecode_nil] at decoded
      cases decoded
      exact ⟨rfl, List.forall_mem_nil _, rfl⟩
  | singleton a =>
      intro bytes decoded
      cases decoded
  | cons_cons a b rest ih _ =>
      intro bytes decoded
      rw [hexDecode_cons_cons] at decoded
      obtain ⟨byte, pair, decoded⟩ := Option.bind_eq_some_iff.mp decoded
      obtain ⟨later, others, decoded⟩ := Option.bind_eq_some_iff.mp decoded
      cases decoded
      obtain ⟨first, second, written⟩ := decodePair_eq_some pair
      obtain ⟨even, digits, encoded⟩ := ih others
      refine ⟨?_, List.forall_mem_cons.mpr ⟨first, List.forall_mem_cons.mpr ⟨second, digits⟩⟩, ?_⟩
      · rw [List.length_cons, List.length_cons]
        omega
      · rw [hexEncode, List.flatMap_cons, ← hexEncode, written, encoded]
        rfl

theorem exists_hexDecode (text : Bytes) :
    text.length % 2 = 0 → (∀ character ∈ text, IsHexDigit character) → ∃ bytes, hexDecode text = some bytes := by
  induction text using List.twoStepInduction with
  | nil => exact fun _ _ => ⟨[], hexDecode_nil⟩
  | singleton a => exact fun even _ => absurd even Nat.one_ne_zero
  | cons_cons a b rest ih _ =>
      intro even digits
      obtain ⟨first, digits⟩ := List.forall_mem_cons.mp digits
      obtain ⟨second, digits⟩ := List.forall_mem_cons.mp digits
      rw [List.length_cons, List.length_cons] at even
      obtain ⟨bytes, later⟩ := ih (by omega) digits
      obtain ⟨byte, pair⟩ := exists_decodePair first second
      exact ⟨byte :: bytes, by rw [hexDecode_cons_cons, pair, later]; rfl⟩

/-- Both encodings are read back as the bytes they were written from, and hexadecimal is read
    from digits only, an even number of them, as the bytes that it writes in lower case. -/
theorem encodings_round_trip :
    (∀ bytes, base64Decode (base64Encode bytes) = some bytes) ∧
    (∀ bytes, hexDecode (hexEncode bytes) = some bytes) ∧
    (∀ text, (∃ bytes, hexDecode text = some bytes) ↔
      text.length % 2 = 0 ∧ ∀ character ∈ text, IsHexDigit character) ∧
    ∀ text bytes, hexDecode text = some bytes → hexEncode bytes = text.map lower := by
  refine ⟨base64Decode_base64Encode, hexDecode_hexEncode, ?_, fun text bytes decoded => (hexDecode_eq_some text decoded).2.2⟩
  intro text
  constructor
  · rintro ⟨bytes, decoded⟩
    obtain ⟨even, digits, -⟩ := hexDecode_eq_some text decoded
    exact ⟨even, digits⟩
  · rintro ⟨even, digits⟩
    exact exists_hexDecode text even digits

end Texts

end Blindplane.Blazingly
