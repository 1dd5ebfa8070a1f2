import Mathlib.Data.List.Basic
import Mathlib.Tactic.Ring

/-! # Big-endian fields and delimited encodings

Byte strings as lists, fixed-width big-endian numerals, and the notion that makes
a concatenation of fields unambiguous: an encoding is *delimited* when it can be
split off the front of any longer string in only one way. Fixed-width fields,
length-prefixed strings and counted repetitions of delimited items are delimited,
whatever follows them.
-/

namespace Blindplane.Lib

abbrev Bytes := List UInt8

namespace Bytes

/-- The low `width` base-256 digits of `n`, most significant first. -/
def be : Nat → Nat → Bytes
  | 0, _ => []
  | width + 1, n => UInt8.ofNat (n / 256 ^ width) :: be width n

/-- Read a base-256 numeral, most significant digit first. -/
def ofBe (bytes : Bytes) : Nat :=
  bytes.foldl (fun acc byte => acc * 256 + byte.toNat) 0

@[simp] theorem be_length (width n : Nat) : (be width n).length = width := by
  induction width with
  | zero => rfl
  | succ width ih => simp only [be, List.length_cons, ih]

private theorem foldl_digits (bytes : Bytes) (acc : Nat) :
    bytes.foldl (fun acc byte => acc * 256 + byte.toNat) acc =
      acc * 256 ^ bytes.length + ofBe bytes := by
  induction bytes generalizing acc with
  | nil => simp [ofBe]
  | cons byte rest ih =>
      simp only [ofBe, List.foldl_cons, List.length_cons, ih (acc * 256 + byte.toNat),
        ih (0 * 256 + byte.toNat)]
      ring

theorem ofBe_cons (byte : UInt8) (rest : Bytes) :
    ofBe (byte :: rest) = byte.toNat * 256 ^ rest.length + ofBe rest := by
  simpa only [ofBe, List.foldl_cons, Nat.zero_mul, Nat.zero_add] using
    foldl_digits rest (0 * 256 + byte.toNat)

theorem ofBe_lt (bytes : Bytes) : ofBe bytes < 256 ^ bytes.length := by
  induction bytes with
  | nil => simp [ofBe]
  | cons byte rest ih =>
      have digit : byte.toNat + 1 ≤ 256 := byte.toNat_lt
      rw [ofBe_cons, List.length_cons, Nat.pow_succ]
      calc byte.toNat * 256 ^ rest.length + ofBe rest
          < byte.toNat * 256 ^ rest.length + 256 ^ rest.length := by omega
        _ = (byte.toNat + 1) * 256 ^ rest.length := by ring
        _ ≤ 256 * 256 ^ rest.length := Nat.mul_le_mul_right _ digit
        _ = 256 ^ rest.length * 256 := Nat.mul_comm _ _

/-- Digits above the window do not show. -/
private theorem be_add_high (width high n : Nat) :
    be width (high * 256 ^ width + n) = be width n := by
  induction width generalizing high with
  | zero => rfl
  | succ width ih =>
      have shifted : high * 256 ^ (width + 1) + n = high * 256 * 256 ^ width + n := by ring
      have digit : UInt8.ofNat (high * 256 + n / 256 ^ width) = UInt8.ofNat (n / 256 ^ width) := by
        apply UInt8.toNat_inj.mp
        simp
      rw [shifted, be, be, ih, Nat.add_comm (high * 256 * 256 ^ width),
        Nat.add_mul_div_right _ _ (Nat.pow_pos (by decide)), Nat.add_comm, digit]

theorem ofBe_be (width n : Nat) : ofBe (be width n) = n % 256 ^ width := by
  induction width with
  | zero => simp [be, ofBe, Nat.mod_one]
  | succ width ih =>
      rw [be, ofBe_cons, be_length, ih, Nat.mod_pow_succ]
      simp only [UInt8.toNat_ofNat', Nat.reducePow]
      ring

theorem be_ofBe (bytes : Bytes) : be bytes.length (ofBe bytes) = bytes := by
  induction bytes with
  | nil => rfl
  | cons byte rest ih =>
      have digit : (byte.toNat * 256 ^ rest.length + ofBe rest) / 256 ^ rest.length = byte.toNat := by
        rw [Nat.add_comm, Nat.add_mul_div_right _ _ (Nat.pow_pos (by decide)),
          Nat.div_eq_of_lt (ofBe_lt rest), Nat.zero_add]
      rw [List.length_cons, be, ofBe_cons, digit, be_add_high, ih, UInt8.ofNat_toNat]

/-- Digits that are not written do not matter. -/
theorem be_mod (width n : Nat) : be width (n % 256 ^ width) = be width n := by
  have digits := be_ofBe (be width n)
  rwa [be_length, ofBe_be] at digits

theorem be_injOn {width m n : Nat} (hm : m < 256 ^ width) (hn : n < 256 ^ width)
    (same : be width m = be width n) : m = n := by
  rw [← Nat.mod_eq_of_lt hm, ← Nat.mod_eq_of_lt hn, ← ofBe_be, ← ofBe_be, same]

/-- Big-endian machine words. -/
def u16 (word : UInt16) : Bytes := be 2 word.toNat

def u32 (word : UInt32) : Bytes := be 4 word.toNat

def u64 (word : UInt64) : Bytes := be 8 word.toNat

@[simp] theorem u16_length (word : UInt16) : (u16 word).length = 2 := be_length 2 _

@[simp] theorem u32_length (word : UInt32) : (u32 word).length = 4 := be_length 4 _

@[simp] theorem u64_length (word : UInt64) : (u64 word).length = 8 := be_length 8 _

theorem u16_ofBe {bytes : Bytes} (length : bytes.length = 2) :
    u16 (UInt16.ofNat (ofBe bytes)) = bytes := by
  have lt : ofBe bytes < 2 ^ 16 := by simpa [length] using ofBe_lt bytes
  rw [u16, UInt16.toNat_ofNat_of_lt' lt, ← length, be_ofBe]

theorem u32_ofBe {bytes : Bytes} (length : bytes.length = 4) :
    u32 (UInt32.ofNat (ofBe bytes)) = bytes := by
  have lt : ofBe bytes < 2 ^ 32 := by simpa [length] using ofBe_lt bytes
  rw [u32, UInt32.toNat_ofNat_of_lt' lt, ← length, be_ofBe]

theorem u64_ofBe {bytes : Bytes} (length : bytes.length = 8) :
    u64 (UInt64.ofNat (ofBe bytes)) = bytes := by
  have lt : ofBe bytes < 2 ^ 64 := by simpa [length] using ofBe_lt bytes
  rw [u64, UInt64.toNat_ofNat_of_lt' lt, ← length, be_ofBe]

theorem ofBe_u16 (word : UInt16) : UInt16.ofNat (ofBe (u16 word)) = word := by
  rw [u16, ofBe_be, Nat.mod_eq_of_lt (by simpa using word.toNat_lt), UInt16.ofNat_toNat]

theorem ofBe_u32 (word : UInt32) : UInt32.ofNat (ofBe (u32 word)) = word := by
  rw [u32, ofBe_be, Nat.mod_eq_of_lt (by simpa using word.toNat_lt), UInt32.ofNat_toNat]

theorem ofBe_u64 (word : UInt64) : UInt64.ofNat (ofBe (u64 word)) = word := by
  rw [u64, ofBe_be, Nat.mod_eq_of_lt (by simpa using word.toNat_lt), UInt64.ofNat_toNat]

/-- A byte string of exactly `n` bytes, as a fixed-size array. -/
def asArray (n : Nat) (bytes : Bytes) : Option (Vector UInt8 n) :=
  if length : bytes.length = n then some ⟨bytes.toArray, length⟩ else none

theorem asArray_eq_some {n : Nat} {bytes : Bytes} {array : Vector UInt8 n} :
    asArray n bytes = some array ↔ bytes = array.toList := by
  unfold asArray
  constructor
  · split
    · simp only [Option.some.injEq]
      rintro rfl
      rfl
    · simp
  · rintro rfl
    simp only [Vector.length_toList, dite_true]
    rfl

theorem asArray_isSome {n : Nat} {bytes : Bytes} :
    (asArray n bytes).isSome ↔ bytes.length = n := by
  unfold asArray
  split <;> simp [*]

end Bytes

/-- Values satisfying `ok` are delimited by `enc`: whatever follows two encodings,
    equal strings start with the same value and go on with the same rest. -/
def Delimited {α β : Type*} (enc : α → List β) (ok : α → Prop) : Prop :=
  ∀ ⦃a b s t⦄, ok a → ok b → enc a ++ s = enc b ++ t → a = b ∧ s = t

namespace Delimited

variable {α β γ : Type*} {enc : α → List β} {ok : α → Prop}

theorem fixedWidth {width : Nat} (length : ∀ a, (enc a).length = width)
    (inj : ∀ a b, ok a → ok b → enc a = enc b → a = b) : Delimited enc ok := by
  intro a b s t ha hb same
  obtain ⟨front, rest⟩ := List.append_inj same (by rw [length, length])
  exact ⟨inj a b ha hb front, rest⟩

/-- A known number of delimited items, one after the other. -/
theorem repeated (delimited : Delimited enc ok) :
    ∀ {xs ys : List α} {s t : List β}, xs.length = ys.length → (∀ x ∈ xs, ok x) → (∀ y ∈ ys, ok y) →
      xs.flatMap enc ++ s = ys.flatMap enc ++ t → xs = ys ∧ s = t
  | [], [], s, t, _, _, _, same => ⟨rfl, by simpa using same⟩
  | x :: xs, y :: ys, s, t, count, hx, hy, same => by
      simp only [List.flatMap_cons, List.append_assoc] at same
      obtain ⟨rfl, rest⟩ := delimited (hx x List.mem_cons_self) (hy y List.mem_cons_self) same
      obtain ⟨rfl, rfl⟩ := repeated delimited (Nat.succ.inj count)
        (fun z member => hx z (List.mem_cons_of_mem _ member))
        (fun z member => hy z (List.mem_cons_of_mem _ member)) rest
      exact ⟨rfl, rfl⟩

/-- Delimited items up to the end of the string, none of them empty. -/
theorem sequenced (delimited : Delimited enc ok) (nonempty : ∀ a, enc a ≠ []) :
    ∀ {xs ys : List α}, (∀ x ∈ xs, ok x) → (∀ y ∈ ys, ok y) → xs.flatMap enc = ys.flatMap enc → xs = ys
  | [], [], _, _, _ => rfl
  | [], y :: ys, _, _, same => absurd (List.append_eq_nil_iff.mp same.symm).1 (nonempty y)
  | x :: xs, [], _, _, same => absurd (List.append_eq_nil_iff.mp same).1 (nonempty x)
  | x :: xs, y :: ys, hx, hy, same => by
      simp only [List.flatMap_cons] at same
      obtain ⟨rfl, rest⟩ := delimited (hx x List.mem_cons_self) (hy y List.mem_cons_self) same
      rw [sequenced delimited nonempty (fun z member => hx z (List.mem_cons_of_mem _ member))
        (fun z member => hy z (List.mem_cons_of_mem _ member)) rest]

end Delimited

namespace Bytes

/-- A big-endian length followed by the bytes it counts. -/
def framed (width : Nat) (bytes : Bytes) : Bytes := be width bytes.length ++ bytes

@[simp] theorem framed_length (width : Nat) (bytes : Bytes) :
    (framed width bytes).length = width + bytes.length := by
  simp only [framed, List.length_append, be_length]

theorem be_delimited (width : Nat) : Delimited (be width) (· < 256 ^ width) :=
  .fixedWidth (be_length width) (fun _ _ hm hn same => be_injOn hm hn same)

theorem framed_delimited (width : Nat) :
    Delimited (framed width) (·.length < 256 ^ width) := by
  intro a b s t ha hb same
  simp only [framed, List.append_assoc] at same
  obtain ⟨length, rest⟩ := be_delimited width ha hb same
  exact List.append_inj rest length

theorem u16_delimited : Delimited u16 (fun _ => True) :=
  .fixedWidth u16_length (fun a b _ _ same => by rw [← ofBe_u16 a, same, ofBe_u16])

theorem u32_delimited : Delimited u32 (fun _ => True) :=
  .fixedWidth u32_length (fun a b _ _ same => by rw [← ofBe_u32 a, same, ofBe_u32])

theorem u64_delimited : Delimited u64 (fun _ => True) :=
  .fixedWidth u64_length (fun a b _ _ same => by rw [← ofBe_u64 a, same, ofBe_u64])

theorem array_delimited (n : Nat) :
    Delimited (Vector.toList : Vector UInt8 n → Bytes) (fun _ => True) :=
  .fixedWidth (fun array => array.length_toList) (fun _ _ _ _ same => Vector.toList_inj.mp same)

/-- A count followed by that many delimited items. -/
theorem counted_delimited {α : Type*} {enc : α → Bytes} {ok : α → Prop} (width : Nat)
    (delimited : Delimited enc ok) :
    Delimited (fun xs : List α => be width xs.length ++ xs.flatMap enc)
      (fun xs => xs.length < 256 ^ width ∧ ∀ x ∈ xs, ok x) := by
  intro xs ys s t hx hy same
  simp only [List.append_assoc] at same
  obtain ⟨count, rest⟩ := be_delimited width hx.1 hy.1 same
  exact delimited.repeated count hx.2 hy.2 rest

end Bytes

end Blindplane.Lib
