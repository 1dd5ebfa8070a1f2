import Blindplane.Lib.Blocks
import Blindplane.Lib.Utf8
import Blindplane.Lib.Words

/-! # Base64

The text form in which records cross the HTTP routes. Encoding writes four characters for
three bytes; decoding works group by group, and counts the padding of a group without
looking where in the group, or in the text, it stands.
-/

namespace Blindplane.Blazingly

open Lib

/-- The characters of standard base64, by value. -/
def ALPHABET : Bytes := Utf8.asBytes "ABCDEFGHIJKLMNOPQRSTUVWXYZabcdefghijklmnopqrstuvwxyz0123456789+/"

/-- `'='`. -/
def PAD : UInt8 := 61

section Encode

/-- The character of a six-bit value. -/
def letter (value : Nat) : UInt8 := ALPHABET.getD value 0

/-- Four characters for up to three bytes. -/
def encodeChunk (chunk : Bytes) : Bytes :=
  let b0 := (chunk.getD 0 0).toNat
  let b1 := (chunk.getD 1 0).toNat
  let b2 := (chunk.getD 2 0).toNat
  let triple := (b0 <<< 16) ||| (b1 <<< 8) ||| b2
  [letter ((triple >>> 18) &&& 63), letter ((triple >>> 12) &&& 63),
    if 1 < chunk.length then letter ((triple >>> 6) &&& 63) else PAD,
    if 2 < chunk.length then letter (triple &&& 63) else PAD]

/-- Standard base64 with padding. -/
def base64Encode (bytes : Bytes) : Bytes := (chunks 3 bytes).flatMap encodeChunk

end Encode

section Decode

/-- The value of a character of the alphabet. -/
def value (byte : UInt8) : Option Nat :=
  if 65 ≤ byte ∧ byte ≤ 90 then some (byte - 65).toNat
  else if 97 ≤ byte ∧ byte ≤ 122 then some ((byte - 97).toNat + 26)
  else if 48 ≤ byte ∧ byte ≤ 57 then some ((byte - 48).toNat + 52)
  else if byte = 43 then some 62
  else if byte = 47 then some 63
  else none

/-- Take in one character of a group: the bits so far, and the padding counted. -/
def absorb (state : Nat × Nat) (character : UInt8 × Nat) : Option (Nat × Nat) :=
  match value character.1 with
  | some bits => some ((state.1 <<< 6) ||| bits, state.2)
  | none => if character.1 = PAD ∧ 2 ≤ character.2 then some ((state.1 <<< 6) ||| 0, state.2 + 1) else none

/-- The bytes of one group. -/
def decodeChunk (chunk : Bytes) : Option Bytes := do
  let (triple, padding) ← chunk.zipIdx.foldlM absorb (0, 0)
  return [UInt8.ofNat (triple >>> 16)] ++ (if padding < 2 then [UInt8.ofNat (triple >>> 8)] else []) ++
    (if padding < 1 then [UInt8.ofNat triple] else [])

/-- Standard base64 with padding, or `none` for what is taken as malformed. -/
def base64Decode (text : Bytes) : Option Bytes :=
  if text.length % 4 ≠ 0 then none
  else do
    let parts ← (chunks 4 text).mapM decodeChunk
    return parts.flatten

end Decode

section Characters

theorem value_letter : ∀ v < 64, value (letter v) = some v := by decide +kernel

private theorem letter_of_value : ∀ n < 256,
    (value (UInt8.ofNat n)).all (fun v => decide (v < 64) && letter v == UInt8.ofNat n) := by
  decide +kernel

/-- The characters with a value are those of the alphabet. -/
theorem value_eq_some {byte : UInt8} {v : Nat} (here : value byte = some v) : v < 64 ∧ letter v = byte := by
  have every := letter_of_value byte.toNat byte.toNat_lt
  rw [UInt8.ofNat_toNat, here, Option.all_some, Bool.and_eq_true, decide_eq_true_eq, beq_iff_eq] at every
  exact every

theorem value_pad : value PAD = none := by decide

theorem absorb_letter {byte : UInt8} {v : Nat} (here : value byte = some v) (triple padding i : Nat) :
    absorb (triple, padding) (byte, i) = some (64 * triple + v, padding) := by
  have low : v < 2 ^ 6 := (value_eq_some here).1
  have joined := Nat.shiftLeft_add_eq_or_of_lt low triple
  simp only [absorb, here]
  rw [← joined, Nat.shiftLeft_eq, Nat.mul_comm]

theorem absorb_pad {i : Nat} (late : 2 ≤ i) (triple padding : Nat) :
    absorb (triple, padding) (PAD, i) = some (64 * triple, padding + 1) := by
  simp only [absorb, value_pad, late, and_self, if_true]
  rw [Nat.or_zero, Nat.shiftLeft_eq, Nat.mul_comm]

/-- What is taken: a character of the alphabet, or padding in the last two places. -/
theorem exists_absorb {state : Nat × Nat} {byte : UInt8} {i : Nat} :
    (∃ state', absorb state (byte, i) = some state') ↔ (∃ v, value byte = some v) ∨ (byte = PAD ∧ 2 ≤ i) := by
  cases here : value byte with
  | some v => exact iff_of_true ⟨_, absorb_letter here state.1 state.2 i⟩ (.inl ⟨v, rfl⟩)
  | none =>
      constructor
      · rintro ⟨state', taken⟩
        simp only [absorb, here] at taken
        by_cases padded : byte = PAD ∧ 2 ≤ i
        · exact .inr padded
        · rw [if_neg padded] at taken
          cases taken
      · rintro (⟨v, other⟩ | ⟨rfl, late⟩)
        · cases other
        · exact ⟨_, absorb_pad late state.1 state.2⟩

end Characters

section Groups

/-- The bits of a group, and its padding. -/
theorem decodeChunk_eq {a b c d : UInt8} {va vb : Nat} (ha : value a = some va) (hb : value b = some vb)
    {state state' : Nat × Nat} (hc : absorb (64 * va + vb, 0) (c, 2) = some state) (hd : absorb state (d, 3) = some state') :
    decodeChunk [a, b, c, d] =
      some ([UInt8.ofNat (state'.1 >>> 16)] ++ (if state'.2 < 2 then [UInt8.ofNat (state'.1 >>> 8)] else []) ++
        (if state'.2 < 1 then [UInt8.ofNat state'.1] else [])) := by
  have first := absorb_letter ha 0 0 0
  have second := absorb_letter hb va 0 1
  rw [Nat.mul_zero, Nat.zero_add] at first
  simp only [decodeChunk, List.zipIdx_cons, List.zipIdx_nil, List.foldlM_cons, List.foldlM_nil, Option.bind_eq_bind,
    Option.bind_some, Option.pure_def, first, second, hc, hd]

/-- Three bytes side by side. -/
theorem triple_eq (a b c : UInt8) :
    (a.toNat <<< 16) ||| (b.toNat <<< 8) ||| c.toNat = 65536 * a.toNat + 256 * b.toNat + c.toNat := by
  have hb := b.toNat_lt
  have low := Nat.shiftLeft_add_eq_or_of_lt c.toNat_lt b.toNat
  have high := Nat.shiftLeft_add_eq_or_of_lt (show b.toNat <<< 8 + c.toNat < 2 ^ 16 by
    have hc := c.toNat_lt
    rw [Nat.shiftLeft_eq]
    omega) a.toNat
  rw [Nat.or_assoc, ← low, ← high, Nat.shiftLeft_eq, Nat.shiftLeft_eq]
  omega

/-- The four values of up to three bytes. -/
theorem encodeChunk_eq (chunk : Bytes) :
    let a := (chunk.getD 0 0).toNat
    let b := (chunk.getD 1 0).toNat
    let c := (chunk.getD 2 0).toNat
    encodeChunk chunk = [letter (a / 4), letter (16 * (a % 4) + b / 16),
      if 1 < chunk.length then letter (4 * (b % 16) + c / 64) else PAD,
      if 2 < chunk.length then letter (c % 64) else PAD] := by
  intro a b c
  have ha : a < 256 := UInt8.toNat_lt _
  have hb : b < 256 := UInt8.toNat_lt _
  have hc : c < 256 := UInt8.toNat_lt _
  have mask (n : Nat) : n &&& 63 = n % 64 := Lib.and_mask n 6
  simp only [encodeChunk, triple_eq, mask, Nat.shiftRight_eq_div_pow]
  have first : (65536 * a + 256 * b + c) / 2 ^ 18 % 64 = a / 4 := by omega
  have second : (65536 * a + 256 * b + c) / 2 ^ 12 % 64 = 16 * (a % 4) + b / 16 := by omega
  have third : (65536 * a + 256 * b + c) / 2 ^ 6 % 64 = 4 * (b % 16) + c / 64 := by omega
  have fourth : (65536 * a + 256 * b + c) % 64 = c % 64 := by omega
  rw [first, second, third, fourth]

theorem encodeChunk_length (chunk : Bytes) : (encodeChunk chunk).length = 4 := rfl

private theorem byte_eq {n : Nat} {byte : UInt8} (low : n % 256 = byte.toNat) : UInt8.ofNat n = byte := by
  apply UInt8.toNat_inj.mp
  rw [UInt8.toNat_ofNat']
  exact low

/-- Decoding undoes encoding, on a group. -/
theorem decodeChunk_encodeChunk {chunk : Bytes} (nonempty : chunk ≠ []) (short : chunk.length ≤ 3) :
    decodeChunk (encodeChunk chunk) = some chunk := by
  rw [encodeChunk_eq]
  match chunk, nonempty, short with
  | [x], _, _ =>
      have hx := x.toNat_lt
      have ha := value_letter (x.toNat / 4) (by omega)
      have hb := value_letter (16 * (x.toNat % 4) + 0 / 16) (by omega)
      refine (decodeChunk_eq ha hb (absorb_pad (Nat.le_refl 2) _ _) (absorb_pad (Nat.le_succ 2) _ _)).trans ?_
      have first : UInt8.ofNat ((64 * (64 * (64 * (x.toNat / 4) + (16 * (x.toNat % 4) + 0 / 16)))) >>> 16) = x := by
        apply byte_eq
        rw [Nat.shiftRight_eq_div_pow]
        omega
      exact congrArg (fun byte => some [byte]) first
  | [x, y], _, _ =>
      have hx := x.toNat_lt
      have hy := y.toNat_lt
      have ha := value_letter (x.toNat / 4) (by omega)
      have hb := value_letter (16 * (x.toNat % 4) + y.toNat / 16) (by omega)
      have hc := value_letter (4 * (y.toNat % 16) + 0 / 64) (by omega)
      refine (decodeChunk_eq ha hb (absorb_letter hc _ _ _) (absorb_pad (Nat.le_succ 2) _ _)).trans ?_
      obtain ⟨n, bits⟩ : ∃ n, n = 64 * (64 * (64 * (x.toNat / 4) + (16 * (x.toNat % 4) + y.toNat / 16)) +
        (4 * (y.toNat % 16) + 0 / 64)) := ⟨_, rfl⟩
      have first : UInt8.ofNat (n >>> 16) = x := byte_eq (by rw [Nat.shiftRight_eq_div_pow]; omega)
      have second : UInt8.ofNat (n >>> 8) = y := byte_eq (by rw [Nat.shiftRight_eq_div_pow]; omega)
      rw [← bits]
      exact congrArg some (congrArg₂ (fun a b => [a, b]) first second)
  | [x, y, z], _, _ =>
      have hx := x.toNat_lt
      have hy := y.toNat_lt
      have hz := z.toNat_lt
      have ha := value_letter (x.toNat / 4) (by omega)
      have hb := value_letter (16 * (x.toNat % 4) + y.toNat / 16) (by omega)
      have hc := value_letter (4 * (y.toNat % 16) + z.toNat / 64) (by omega)
      have hd := value_letter (z.toNat % 64) (by omega)
      refine (decodeChunk_eq ha hb (absorb_letter hc _ _ _) (absorb_letter hd _ _ _)).trans ?_
      obtain ⟨n, bits⟩ : ∃ n, n = 64 * (64 * (64 * (x.toNat / 4) + (16 * (x.toNat % 4) + y.toNat / 16)) +
        (4 * (y.toNat % 16) + z.toNat / 64)) + z.toNat % 64 := ⟨_, rfl⟩
      have first : UInt8.ofNat (n >>> 16) = x := byte_eq (by rw [Nat.shiftRight_eq_div_pow]; omega)
      have second : UInt8.ofNat (n >>> 8) = y := byte_eq (by rw [Nat.shiftRight_eq_div_pow]; omega)
      have third : UInt8.ofNat n = z := byte_eq (by omega)
      rw [← bits, first, second, third]
      rfl

end Groups

section Texts

/-- The groups of a text that was encoded are the encoded groups. -/
theorem chunks_flatMap_encodeChunk (groups : List Bytes) : chunks 4 (groups.flatMap encodeChunk) = groups.map encodeChunk := by
  induction groups with
  | nil => rw [List.flatMap_nil, chunks_nil, List.map_nil]
  | cons chunk rest ih =>
      rw [List.flatMap_cons, chunks_block_append (by decide) (encodeChunk_length chunk), ih, List.map_cons]

theorem dvd_length_flatMap_encodeChunk (groups : List Bytes) : 4 ∣ (groups.flatMap encodeChunk).length := by
  induction groups with
  | nil => exact dvd_zero 4
  | cons chunk rest ih =>
      rw [List.flatMap_cons, List.length_append, encodeChunk_length]
      exact (Nat.dvd_add_right (dvd_refl 4)).mpr ih

private theorem mapM_decodeChunk {groups : List Bytes} (small : ∀ chunk ∈ groups, chunk ≠ [] ∧ chunk.length ≤ 3) :
    (groups.map encodeChunk).mapM decodeChunk = some groups := by
  induction groups with
  | nil => rfl
  | cons chunk rest ih =>
      obtain ⟨first, later⟩ := List.forall_mem_cons.mp small
      rw [List.map_cons, List.mapM_cons, decodeChunk_encodeChunk first.1 first.2, ih later]
      rfl

/-- Decoding undoes encoding. -/
theorem base64Decode_base64Encode (bytes : Bytes) : base64Decode (base64Encode bytes) = some bytes := by
  have whole : ¬(base64Encode bytes).length % 4 ≠ 0 :=
    not_not.mpr (Nat.mod_eq_zero_of_dvd (dvd_length_flatMap_encodeChunk _))
  rw [base64Decode, if_neg whole, base64Encode, chunks_flatMap_encodeChunk, mapM_decodeChunk fun _ => mem_chunks]
  exact congrArg some (flatten_chunks (by decide) bytes)

end Texts

section Standard

/-- Four characters of the alphabet. -/
inductive Full : Bytes → Prop
  | intro {a b c d : UInt8} {va vb vc vd : Nat} (ha : value a = some va) (hb : value b = some vb)
      (hc : value c = some vc) (hd : value d = some vd) : Full [a, b, c, d]

/-- Two or three characters and the padding, with nothing in the bits that are not used. -/
inductive Padded : Bytes → Prop
  | one {a b c : UInt8} {va vb vc : Nat} (ha : value a = some va) (hb : value b = some vb)
      (hc : value c = some vc) (unused : vc % 4 = 0) : Padded [a, b, c, PAD]
  | two {a b : UInt8} {va vb : Nat} (ha : value a = some va) (hb : value b = some vb)
      (unused : vb % 16 = 0) : Padded [a, b, PAD, PAD]

/-- Standard padded base64: full groups, and padding in the last one only. -/
inductive Standard : List Bytes → Prop
  | nil : Standard []
  | last {group : Bytes} (end_group : Full group ∨ Padded group) : Standard [group]
  | cons {group : Bytes} {rest : List Bytes} (full : Full group) (later : Standard rest) : Standard (group :: rest)

/-- What the characters of a group are checked for. -/
inductive Lexed : Bytes → Prop
  | intro {a b c d : UInt8} {va vb : Nat} (ha : value a = some va) (hb : value b = some vb)
      (hc : (∃ vc, value c = some vc) ∨ c = PAD) (hd : (∃ vd, value d = some vd) ∨ d = PAD) : Lexed [a, b, c, d]

/-- Groups of four, with characters of the alphabet and perhaps padding in the last two
    places of each. -/
def Accepted (text : Bytes) : Prop := text.length % 4 = 0 ∧ ∀ group ∈ chunks 4 text, Lexed group

theorem Lexed.decodes {group : Bytes} (lexed : Lexed group) : ∃ bytes, decodeChunk group = some bytes := by
  cases lexed with
  | @intro a b c d va vb ha hb hc hd =>
      obtain ⟨state, third⟩ := @exists_absorb (64 * va + vb, 0) c 2 |>.mpr (hc.imp_right (⟨·, Nat.le_refl 2⟩))
      obtain ⟨state', fourth⟩ := @exists_absorb state d 3 |>.mpr (hd.imp_right (⟨·, Nat.le_succ 2⟩))
      exact ⟨_, decodeChunk_eq ha hb third fourth⟩

/-- Only such groups are decoded. -/
theorem Lexed.of_decodes {group bytes : Bytes} (four : group.length = 4) (decoded : decodeChunk group = some bytes) :
    Lexed group := by
  match group, four with
  | [a, b, c, d], _ =>
      simp only [decodeChunk, List.zipIdx_cons, List.zipIdx_nil, List.foldlM_cons, List.foldlM_nil, Option.bind_eq_bind,
        Option.bind_eq_some_iff] at decoded
      obtain ⟨_, ⟨s1, first, s2, second, s3, third, s4, fourth, -⟩, -⟩ := decoded
      obtain ⟨va, ha⟩ | ⟨-, early⟩ := exists_absorb.mp ⟨s1, first⟩
      · obtain ⟨vb, hb⟩ | ⟨-, early⟩ := exists_absorb.mp ⟨s2, second⟩
        · have hc := exists_absorb.mp ⟨s3, third⟩
          have hd := exists_absorb.mp ⟨s4, fourth⟩
          exact .intro ha hb (hc.imp_right And.left) (hd.imp_right And.left)
        · cases early
          contradiction
      · cases early

theorem mapM_decodeChunk_iff {groups : List Bytes} (four : ∀ group ∈ groups, group.length = 4) :
    (∃ parts, groups.mapM decodeChunk = some parts) ↔ ∀ group ∈ groups, Lexed group := by
  induction groups with
  | nil => exact iff_of_true ⟨[], rfl⟩ (List.forall_mem_nil _)
  | cons group rest ih =>
      obtain ⟨here, later⟩ := List.forall_mem_cons.mp four
      rw [List.forall_mem_cons, ← ih later]
      constructor
      · rintro ⟨parts, decoded⟩
        rw [List.mapM_cons] at decoded
        obtain ⟨first, one, decoded⟩ := Option.bind_eq_some_iff.mp decoded
        obtain ⟨others, many, -⟩ := Option.bind_eq_some_iff.mp decoded
        exact ⟨.of_decodes here one, others, many⟩
      · rintro ⟨lexed, parts, many⟩
        obtain ⟨first, one⟩ := lexed.decodes
        exact ⟨first :: parts, by rw [List.mapM_cons, one, many]; rfl⟩

/-- What is decoded at all. -/
theorem exists_base64Decode (text : Bytes) : (∃ bytes, base64Decode text = some bytes) ↔ Accepted text := by
  rw [base64Decode, Accepted]
  by_cases whole : text.length % 4 = 0
  · rw [if_neg (not_not.mpr whole), and_iff_right whole]
    have four := (chunks_whole (by decide) (Nat.mul_div_cancel' (Nat.dvd_of_mod_eq_zero whole)).symm).2
    rw [← mapM_decodeChunk_iff four]
    constructor
    · rintro ⟨bytes, decoded⟩
      obtain ⟨parts, many, -⟩ := Option.bind_eq_some_iff.mp decoded
      exact ⟨parts, many⟩
    · rintro ⟨parts, many⟩
      exact ⟨parts.flatten, by rw [many]; rfl⟩
  · rw [if_pos whole]
    exact iff_of_false (fun ⟨_, decoded⟩ => nomatch decoded) (fun both => whole both.1)

/-- An encoded group is in standard form. -/
theorem encodeChunk_standard {chunk : Bytes} (nonempty : chunk ≠ []) (short : chunk.length ≤ 3) :
    Full (encodeChunk chunk) ∨ (chunk.length < 3 ∧ Padded (encodeChunk chunk)) := by
  rw [encodeChunk_eq]
  match chunk, nonempty, short with
  | [x], _, _ =>
      have hx := x.toNat_lt
      exact .inr ⟨(by decide : 1 < 3), .two (value_letter (x.toNat / 4) (by omega))
        (value_letter (16 * (x.toNat % 4) + 0 / 16) (by omega)) (by omega)⟩
  | [x, y], _, _ =>
      have hx := x.toNat_lt
      have hy := y.toNat_lt
      exact .inr ⟨(by decide : 2 < 3), .one (value_letter (x.toNat / 4) (by omega))
        (value_letter (16 * (x.toNat % 4) + y.toNat / 16) (by omega))
        (value_letter (4 * (y.toNat % 16) + 0 / 64) (by omega)) (by omega)⟩
  | [x, y, z], _, _ =>
      have hx := x.toNat_lt
      have hy := y.toNat_lt
      have hz := z.toNat_lt
      exact .inl (.intro (value_letter (x.toNat / 4) (by omega))
        (value_letter (16 * (x.toNat % 4) + y.toNat / 16) (by omega))
        (value_letter (4 * (y.toNat % 16) + z.toNat / 64) (by omega)) (value_letter (z.toNat % 64) (by omega)))

/-- What encoding writes is in standard form. -/
theorem standard_base64Encode (bytes : Bytes) : Standard (chunks 4 (base64Encode bytes)) := by
  rw [base64Encode, chunks_flatMap_encodeChunk]
  induction bytes using chunks.induct 3 with
  | case1 bytes done =>
      rw [chunks, dif_pos done]
      exact .nil
  | case2 bytes more ih =>
      rw [chunks, dif_neg more, List.map_cons]
      obtain ⟨nonempty, -⟩ := not_or.mp more
      have some_bytes := List.length_pos_iff.mpr nonempty
      have chunk : bytes.take 3 ≠ [] := by
        apply List.ne_nil_of_length_pos
        rw [List.length_take]
        omega
      have standard := encodeChunk_standard chunk (List.length_take_le 3 bytes)
      by_cases last : bytes.length ≤ 3
      · rw [List.drop_of_length_le last, chunks_nil, List.map_nil]
        exact .last (standard.imp_right And.right)
      · cases standard with
        | inl full => exact .cons full ih
        | inr padded =>
            have short := padded.1
            rw [List.length_take] at short
            omega

private theorem toNat_byte {n : Nat} (fits : n < 256) : (UInt8.ofNat n).toNat = n := UInt8.toNat_ofNat_of_lt' fits

/-- The bytes of a full group. -/
theorem Full.encoded {group : Bytes} (full : Full group) :
    ∃ chunk : Bytes, chunk.length = 3 ∧ encodeChunk chunk = group := by
  cases full with
  | @intro a b c d va vb vc vd ha hb hc hd =>
      obtain ⟨la, rfl⟩ := value_eq_some ha
      obtain ⟨lb, rfl⟩ := value_eq_some hb
      obtain ⟨lc, rfl⟩ := value_eq_some hc
      obtain ⟨ld, rfl⟩ := value_eq_some hd
      have x : (UInt8.ofNat (4 * va + vb / 16)).toNat = 4 * va + vb / 16 := toNat_byte (by omega)
      have y : (UInt8.ofNat (16 * (vb % 16) + vc / 4)).toNat = 16 * (vb % 16) + vc / 4 := toNat_byte (by omega)
      have z : (UInt8.ofNat (64 * (vc % 4) + vd)).toNat = 64 * (vc % 4) + vd := toNat_byte (by omega)
      refine ⟨[.ofNat (4 * va + vb / 16), .ofNat (16 * (vb % 16) + vc / 4), .ofNat (64 * (vc % 4) + vd)], rfl, ?_⟩
      rw [encodeChunk_eq]
      simp only [List.getD_cons_zero, List.getD_cons_succ, x, y, z]
      have first : (4 * va + vb / 16) / 4 = va := by omega
      have second : 16 * ((4 * va + vb / 16) % 4) + (16 * (vb % 16) + vc / 4) / 16 = vb := by omega
      have third : 4 * ((16 * (vb % 16) + vc / 4) % 16) + (64 * (vc % 4) + vd) / 64 = vc := by omega
      have fourth : (64 * (vc % 4) + vd) % 64 = vd := by omega
      rw [first, second, third, fourth]
      rfl

/-- The bytes of a padded group. -/
theorem Padded.encoded {group : Bytes} (padded : Padded group) :
    ∃ chunk : Bytes, chunk ≠ [] ∧ chunk.length ≤ 3 ∧ encodeChunk chunk = group := by
  cases padded with
  | @one a b c va vb vc ha hb hc unused =>
      obtain ⟨la, rfl⟩ := value_eq_some ha
      obtain ⟨lb, rfl⟩ := value_eq_some hb
      obtain ⟨lc, rfl⟩ := value_eq_some hc
      have x : (UInt8.ofNat (4 * va + vb / 16)).toNat = 4 * va + vb / 16 := toNat_byte (by omega)
      have y : (UInt8.ofNat (16 * (vb % 16) + vc / 4)).toNat = 16 * (vb % 16) + vc / 4 := toNat_byte (by omega)
      refine ⟨[.ofNat (4 * va + vb / 16), .ofNat (16 * (vb % 16) + vc / 4)], List.cons_ne_nil _ _, (by decide : 2 ≤ 3), ?_⟩
      rw [encodeChunk_eq]
      simp only [List.getD_cons_zero, List.getD_cons_succ, List.getD_nil, x, y]
      have first : (4 * va + vb / 16) / 4 = va := by omega
      have second : 16 * ((4 * va + vb / 16) % 4) + (16 * (vb % 16) + vc / 4) / 16 = vb := by omega
      have third : 4 * ((16 * (vb % 16) + vc / 4) % 16) + (0 : UInt8).toNat / 64 = vc := by
        rw [UInt8.toNat_zero]
        omega
      rw [first, second, third]
      rfl
  | @two a b va vb ha hb unused =>
      obtain ⟨la, rfl⟩ := value_eq_some ha
      obtain ⟨lb, rfl⟩ := value_eq_some hb
      have x : (UInt8.ofNat (4 * va + vb / 16)).toNat = 4 * va + vb / 16 := toNat_byte (by omega)
      refine ⟨[.ofNat (4 * va + vb / 16)], List.cons_ne_nil _ _, (by decide : 1 ≤ 3), ?_⟩
      rw [encodeChunk_eq]
      simp only [List.getD_cons_zero, List.getD_cons_succ, List.getD_nil, x]
      have first : (4 * va + vb / 16) / 4 = va := by omega
      have second : 16 * ((4 * va + vb / 16) % 4) + (0 : UInt8).toNat / 16 = vb := by
        rw [UInt8.toNat_zero]
        omega
      rw [first, second]
      rfl

/-- Everything in standard form was encoded. -/
theorem Standard.encoded {groups : List Bytes} (standard : Standard groups) :
    ∃ bytes, (chunks 3 bytes).map encodeChunk = groups := by
  induction standard with
  | nil => exact ⟨[], by rw [chunks_nil, List.map_nil]⟩
  | @last group end_group =>
      have encoded : ∃ chunk : Bytes, chunk ≠ [] ∧ chunk.length ≤ 3 ∧ encodeChunk chunk = group := by
        cases end_group with
        | inl full =>
            obtain ⟨chunk, three, same⟩ := full.encoded
            exact ⟨chunk, List.ne_nil_of_length_pos (by omega), Nat.le_of_eq three, same⟩
        | inr padded => exact padded.encoded
      obtain ⟨chunk, nonempty, short, same⟩ := encoded
      exact ⟨chunk, by rw [chunks_of_le nonempty short, List.map_singleton, same]⟩
  | cons full later ih =>
      obtain ⟨chunk, three, same⟩ := full.encoded
      obtain ⟨bytes, rest⟩ := ih
      exact ⟨chunk ++ bytes, by rw [chunks_block_append (by decide) three, List.map_cons, same, rest]⟩

/-- A text in standard form is what its bytes are encoded as. -/
theorem exists_base64Encode {text : Bytes} (standard : Standard (chunks 4 text)) :
    ∃ bytes, base64Encode bytes = text := by
  obtain ⟨bytes, same⟩ := standard.encoded
  refine ⟨bytes, ?_⟩
  rw [base64Encode, List.flatMap_def, same, flatten_chunks (by decide)]

end Standard

section Exactness

/-- Decoding takes a text only for the bytes it encodes. -/
def DecodesExactly (text : Bytes) : Prop := ∀ bytes, base64Decode text = some bytes ↔ base64Encode bytes = text

theorem DecodesExactly.standard {text : Bytes} (exact_text : DecodesExactly text) (accepted : Accepted text) :
    Standard (chunks 4 text) := by
  obtain ⟨bytes, decoded⟩ := (exists_base64Decode text).mpr accepted
  rw [← (exact_text bytes).mp decoded]
  exact standard_base64Encode bytes

theorem base64Encode_of_decodes {text bytes : Bytes} (standard : Standard (chunks 4 text))
    (decoded : base64Decode text = some bytes) : base64Encode bytes = text := by
  obtain ⟨source, same⟩ := exists_base64Encode standard
  rw [← same, base64Decode_base64Encode] at decoded
  cases decoded
  exact same

/-- A text is decoded exactly when it is refused or in standard form; and no two texts in
    standard form have the same bytes. -/
theorem decodesExactly_iff (text : Bytes) :
    (DecodesExactly text ↔ ¬ Accepted text ∨ Standard (chunks 4 text)) ∧
    ∀ text' bytes, Standard (chunks 4 text) → Standard (chunks 4 text') →
      base64Decode text = some bytes → base64Decode text' = some bytes → text = text' := by
  constructor
  · constructor
    · intro exact_text
      by_cases accepted : Accepted text
      · exact .inr (exact_text.standard accepted)
      · exact .inl accepted
    · intro condition bytes
      constructor
      · intro decoded
        cases condition with
        | inl refused => exact absurd ((exists_base64Decode text).mp ⟨bytes, decoded⟩) refused
        | inr standard => exact base64Encode_of_decodes standard decoded
      · rintro rfl
        exact base64Decode_base64Encode bytes
  · intro text' bytes standard standard' decoded decoded'
    rw [← base64Encode_of_decodes standard decoded, base64Encode_of_decodes standard' decoded']

/-- A text of one group. -/
theorem base64Decode_group {group : Bytes} (four : group.length = 4) : base64Decode group = decodeChunk group := by
  have nonempty : group ≠ [] := List.ne_nil_of_length_pos (by omega)
  have whole : ¬group.length % 4 ≠ 0 := by omega
  rw [base64Decode, if_neg whole, chunks_of_le nonempty (Nat.le_of_eq four), List.mapM_cons]
  cases decodeChunk group with
  | none => rfl
  | some bytes => exact congrArg some (List.append_nil bytes)

/-- The text of one byte. -/
theorem base64Encode_one : base64Encode [1] = Utf8.asBytes "AQ==" := by
  have bytes : Utf8.asBytes "AQ==" = [65, 81, PAD, PAD] := rfl
  have standard : Standard (chunks 4 (Utf8.asBytes "AQ==")) := by
    rw [bytes, chunks_of_le (List.cons_ne_nil _ _) (Nat.le_refl 4)]
    have a : value 65 = some 0 := by decide
    have b : value 81 = some 16 := by decide
    exact .last (.inr (.two a b rfl))
  have decoded : base64Decode (Utf8.asBytes "AQ==") = some [1] := by
    rw [bytes, base64Decode_group rfl]
    decide
  exact (decodesExactly_iff (base64Encode [1])).2 (Utf8.asBytes "AQ==") [1] (standard_base64Encode [1]) standard
    (base64Decode_base64Encode [1]) decoded

/-- A padding character before a letter: `AA=A` has the bytes of `AAA=`. -/
theorem not_decodesExactly :
    base64Decode (Utf8.asBytes "AA=A") = base64Decode (Utf8.asBytes "AAA=") ∧ ¬ DecodesExactly (Utf8.asBytes "AA=A") := by
  have padded : Utf8.asBytes "AAA=" = [65, 65, 65, PAD] := rfl
  have broken : Utf8.asBytes "AA=A" = [65, 65, PAD, 65] := rfl
  have same : base64Decode (Utf8.asBytes "AA=A") = base64Decode (Utf8.asBytes "AAA=") := by
    rw [padded, broken, base64Decode_group rfl, base64Decode_group rfl]
    decide
  refine ⟨same, ?_⟩
  intro exact_text
  have decoded : base64Decode (Utf8.asBytes "AA=A") = some [0, 0] := by
    rw [broken, base64Decode_group rfl]
    decide
  have encoded := (exact_text [0, 0]).mp decoded
  rw [base64Encode, chunks_of_le (List.cons_ne_nil _ _) (by decide), List.flatMap_singleton, broken] at encoded
  revert encoded
  decide +kernel

end Exactness

end Blindplane.Blazingly
