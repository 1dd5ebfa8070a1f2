import Blindplane.Lib.Bytes
import Mathlib.Data.Nat.Digits.Lemmas
import Mathlib.Tactic.LinearCombination

/-! # Little-endian numerals

Numerals of a fixed width, least significant digit first, over any base: bytes make up
words, and words make up longer numbers. Cutting a byte string into words and reading
those is reading the string.
-/

namespace Blindplane.Lib

/-- The low `width` digits of `n`, least significant first. -/
def lowDigits (base : Nat) : (width n : Nat) → List Nat
  | 0, _ => []
  | width + 1, n => n % base :: lowDigits base width (n / base)

@[simp] theorem lowDigits_length (base width n : Nat) : (lowDigits base width n).length = width := by
  induction width generalizing n with
  | zero => rfl
  | succ width ih => rw [lowDigits, List.length_cons, ih]

theorem ofDigits_lowDigits (base width n : Nat) :
    Nat.ofDigits base (lowDigits base width n) = n % base ^ width := by
  induction width generalizing n with
  | zero => rw [lowDigits, Nat.ofDigits_nil, Nat.pow_zero, Nat.mod_one]
  | succ width ih => rw [lowDigits, Nat.ofDigits_cons, ih, Nat.pow_succ', Nat.mod_mul]

theorem lowDigits_ofDigits {base : Nat} {digits : List Nat} (below : ∀ digit ∈ digits, digit < base) :
    lowDigits base digits.length (Nat.ofDigits base digits) = digits := by
  induction digits with
  | nil => rfl
  | cons digit rest ih =>
      obtain ⟨first, later⟩ := List.forall_mem_cons.mp below
      rw [List.length_cons, lowDigits, Nat.ofDigits_cons, Nat.add_mul_mod_self_left,
        Nat.mod_eq_of_lt first, Nat.add_mul_div_left _ _ (Nat.zero_lt_of_lt first),
        Nat.div_eq_of_lt first, Nat.zero_add, ih later]

theorem lt_of_mem_lowDigits {base width n digit : Nat} (positive : 0 < base)
    (member : digit ∈ lowDigits base width n) : digit < base := by
  induction width generalizing n with
  | zero => cases member
  | succ width ih =>
      cases member with
      | head => exact Nat.mod_lt _ positive
      | tail _ later => exact ih later

theorem ofDigits_lt {base : Nat} {digits : List Nat} (below : ∀ digit ∈ digits, digit < base) :
    Nat.ofDigits base digits < base ^ digits.length := by
  induction digits with
  | nil => exact Nat.one_pos
  | cons digit rest ih =>
      obtain ⟨first, later⟩ := List.forall_mem_cons.mp below
      rw [Nat.ofDigits_cons, List.length_cons, Nat.pow_succ']
      calc digit + base * Nat.ofDigits base rest
          < base * (Nat.ofDigits base rest + 1) := by rw [Nat.mul_succ, Nat.add_comm]; omega
        _ ≤ base * base ^ rest.length := Nat.mul_le_mul_left _ (ih later)

namespace Bytes

/-- The low `width` base-256 digits of `n`, least significant first. -/
def le (width n : Nat) : Bytes := (lowDigits 256 width n).map UInt8.ofNat

/-- Read a base-256 numeral, least significant digit first. -/
def ofLe (bytes : Bytes) : Nat := Nat.ofDigits 256 (bytes.map UInt8.toNat)

@[simp] theorem le_length (width n : Nat) : (le width n).length = width := by
  rw [le, List.length_map, lowDigits_length]

private theorem byte_lt (bytes : Bytes) : ∀ digit ∈ bytes.map UInt8.toNat, digit < 256 := by
  intro digit member
  obtain ⟨byte, -, rfl⟩ := List.mem_map.mp member
  exact byte.toNat_lt

@[simp] theorem ofLe_nil : ofLe [] = 0 := rfl

theorem ofLe_cons (byte : UInt8) (rest : Bytes) : ofLe (byte :: rest) = byte.toNat + 256 * ofLe rest := by
  rw [ofLe, List.map_cons, Nat.ofDigits_cons, ofLe]

theorem ofLe_append (front back : Bytes) :
    ofLe (front ++ back) = ofLe front + 256 ^ front.length * ofLe back := by
  rw [ofLe, List.map_append, Nat.ofDigits_append, List.length_map, ofLe, ofLe]

theorem ofLe_lt (bytes : Bytes) : ofLe bytes < 256 ^ bytes.length := by
  have below := ofDigits_lt (byte_lt bytes)
  rwa [List.length_map] at below

theorem toNat_le (width n : Nat) : (le width n).map UInt8.toNat = lowDigits 256 width n := by
  rw [le, List.map_map]
  calc (lowDigits 256 width n).map (UInt8.toNat ∘ UInt8.ofNat)
      = (lowDigits 256 width n).map id := List.map_congr_left fun digit member =>
          UInt8.toNat_ofNat_of_lt' (lt_of_mem_lowDigits (by decide) member)
    _ = lowDigits 256 width n := List.map_id _

theorem ofLe_le (width n : Nat) : ofLe (le width n) = n % 256 ^ width := by
  rw [ofLe, toNat_le, ofDigits_lowDigits]

theorem le_ofLe (bytes : Bytes) : le bytes.length (ofLe bytes) = bytes := by
  have digits := lowDigits_ofDigits (byte_lt bytes)
  rw [List.length_map] at digits
  rw [le, ofLe, digits, List.map_map]
  exact List.map_id'' (fun byte => UInt8.ofNat_toNat) bytes

theorem ofLe_inj {a b : Bytes} (length : a.length = b.length) : ofLe a = ofLe b ↔ a = b := by
  refine ⟨fun same => ?_, fun same => congrArg ofLe same⟩
  rw [← le_ofLe a, ← le_ofLe b, length, same]

/-- Zero bytes at the end add nothing. -/
theorem ofLe_append_zeros (bytes : Bytes) (count : Nat) :
    ofLe (bytes ++ List.replicate count 0) = ofLe bytes := by
  have zeros : ofLe (List.replicate count 0) = 0 := by
    induction count with
    | zero => rfl
    | succ count ih => rw [List.replicate_succ, ofLe_cons, ih]; rfl
  rw [ofLe_append, zeros, Nat.mul_zero, Nat.add_zero]

/-- Changing one byte. -/
theorem ofLe_set {bytes : Bytes} {position : Nat} {old : UInt8} (here : bytes[position]? = some old)
    (new : UInt8) :
    ofLe (bytes.set position new) + 256 ^ position * old.toNat =
      ofLe bytes + 256 ^ position * new.toNat := by
  induction bytes generalizing position with
  | nil => cases here
  | cons byte rest ih =>
      cases position with
      | zero =>
          rw [List.getElem?_cons_zero, Option.some.injEq] at here
          rw [List.set_cons_zero, ofLe_cons, ofLe_cons, here]
          ring
      | succ position =>
          rw [List.getElem?_cons_succ] at here
          rw [List.set_cons_succ, ofLe_cons, ofLe_cons, Nat.pow_succ']
          linear_combination 256 * ih here

/-- Reading one byte off the number. -/
theorem toNat_eq_of_getElem? {bytes : Bytes} {position : Nat} {byte : UInt8}
    (here : bytes[position]? = some byte) : byte.toNat = ofLe bytes / 256 ^ position % 256 := by
  induction bytes generalizing position with
  | nil => cases here
  | cons first rest ih =>
      have fits := first.toNat_lt
      cases position with
      | zero =>
          rw [List.getElem?_cons_zero, Option.some.injEq] at here
          rw [ofLe_cons, ← here, Nat.pow_zero, Nat.div_one]
          omega
      | succ position =>
          rw [List.getElem?_cons_succ] at here
          rw [ih here, ofLe_cons, Nat.pow_succ', ← Nat.div_div_eq_div_mul,
            Nat.add_mul_div_left _ _ (by decide), Nat.div_eq_of_lt fits, Nat.zero_add]

theorem toNat_getD (bytes : Bytes) (position : Nat) :
    (bytes.getD position 0).toNat = ofLe bytes / 256 ^ position % 256 := by
  rw [List.getD_eq_getElem?_getD]
  cases here : bytes[position]? with
  | some byte => exact toNat_eq_of_getElem? here
  | none =>
      have short := List.getElem?_eq_none_iff.mp here
      have below := (ofLe_lt bytes).trans_le (Nat.pow_le_pow_right (by decide) short)
      rw [Nat.div_eq_of_lt below]
      rfl

/-- Reading one bit off the number. -/
theorem testBit_ofLe (bytes : Bytes) (i : Nat) :
    (ofLe bytes).testBit i = (bytes.getD (i / 8) 0).toNat.testBit (i % 8) := by
  have position : i % 2 ^ 3 + 8 * (i / 2 ^ 3) = i := Nat.mod_add_div i 8
  have within : i % 2 ^ 3 < 8 := Nat.mod_lt i (by decide)
  have base : 256 ^ (i / 2 ^ 3) = 2 ^ (8 * (i / 2 ^ 3)) := (Nat.pow_mul 2 8 _).symm
  have width : 256 = 2 ^ 8 := rfl
  have eight : 8 = 2 ^ 3 := rfl
  conv_rhs => rw [eight, toNat_getD, base, width, Nat.testBit_mod_two_pow, Nat.testBit_div_two_pow, position,
    decide_eq_true within, Bool.true_and]

theorem bit_eq_testBit (bytes : Bytes) (i : Nat) :
    (bytes.getD (i >>> 3) 0).toNat >>> (i &&& 7) &&& 1 = ((ofLe bytes).testBit i).toNat := by
  have byte : i >>> 3 = i / 8 := Nat.shiftRight_eq_div_pow i 3
  have low : i &&& 7 = i % 8 := Nat.and_two_pow_sub_one_eq_mod i 3
  rw [testBit_ofLe, byte, low, Nat.toNat_testBit, Nat.and_one_is_mod, Nat.shiftRight_eq_div_pow]

/-- A numeral written the other way round. -/
theorem ofBe_eq_ofLe_reverse (bytes : Bytes) : ofBe bytes = ofLe bytes.reverse := by
  induction bytes using List.reverseRecOn with
  | nil => rfl
  | append_singleton front byte ih =>
      have last : ofBe (front ++ [byte]) = ofBe front * 256 + byte.toNat := by
        rw [ofBe, List.foldl_append, ofBe, List.foldl_cons, List.foldl_nil]
      rw [last, ih, List.reverse_append, List.reverse_singleton, List.singleton_append, ofLe_cons]
      ring

/-- Bytes that are written first are the low ones. -/
theorem le_add (a b n : Nat) : le (a + b) n = le a n ++ le b (n / 256 ^ a) := by
  have whole : ofLe (le (a + b) n) = ofLe (le a n ++ le b (n / 256 ^ a)) := by
    rw [ofLe_append, ofLe_le, ofLe_le, ofLe_le, le_length, Nat.pow_add, Nat.mod_mul]
  exact (ofLe_inj (by rw [List.length_append, le_length, le_length, le_length])).mp whole

/-- Digits that are not written do not matter. -/
theorem le_mod (width n : Nat) : le width (n % 256 ^ width) = le width n := by
  rw [← ofLe_inj (by rw [le_length, le_length]), ofLe_le, ofLe_le, Nat.mod_mod]

/-- A little-endian numeral as a fixed-size array. -/
def leArray (width n : Nat) : Vector UInt8 width := ⟨(le width n).toArray, le_length width n⟩

@[simp] theorem leArray_toList (width n : Nat) : (leArray width n).toList = le width n := rfl

/-- The little-endian word of eight bytes at `offset`. -/
def readLe64 (bytes : Bytes) (offset : Nat) : Nat := ofLe ((bytes.drop offset).take 8)

/-- The base of numerals whose digits are machine words. -/
theorem word_base : 256 ^ 8 = 2 ^ 64 := by norm_num

theorem readLe64_lt (bytes : Bytes) (offset : Nat) : readLe64 bytes offset < 2 ^ 64 := by
  rw [← word_base, readLe64]
  exact (ofLe_lt _).trans_le (Nat.pow_le_pow_right (by decide) (List.length_take_le 8 _))

/-- Two words side by side. -/
theorem readLe64_pair {bytes : Bytes} (length : bytes.length = 16) :
    readLe64 bytes 0 + 2 ^ 64 * readLe64 bytes 8 = ofLe bytes := by
  have front : (bytes.take 8).length = 8 := by
    rw [List.length_take, length]
    rfl
  have back : (bytes.drop 8).take 8 = bytes.drop 8 := by
    apply List.take_of_length_le
    rw [List.length_drop, length]
  have whole := ofLe_append (bytes.take 8) (bytes.drop 8)
  rw [List.take_append_drop, front, word_base] at whole
  rw [readLe64, readLe64, List.drop_zero, back, whole]

/-- The first words of a byte string, each of `size` bytes read little-endian. -/
def words (size : Nat) : (count : Nat) → Bytes → List Nat
  | 0, _ => []
  | count + 1, bytes => ofLe (bytes.take size) :: words size count (bytes.drop size)

@[simp] theorem words_length (size count : Nat) (bytes : Bytes) :
    (words size count bytes).length = count := by
  induction count generalizing bytes with
  | zero => rfl
  | succ count ih => rw [words, List.length_cons, ih]

theorem lt_of_mem_words {size count word : Nat} {bytes : Bytes} (member : word ∈ words size count bytes) :
    word < 256 ^ size := by
  induction count generalizing bytes with
  | zero => cases member
  | succ count ih =>
      cases member with
      | head =>
          refine Nat.lt_of_lt_of_le (ofLe_lt _) (Nat.pow_le_pow_right (by decide) ?_)
          exact List.length_take_le size bytes
      | tail _ later => exact ih later

/-- The words make up the number their bytes make up. -/
theorem ofDigits_words {size count : Nat} {bytes : Bytes} (length : bytes.length = size * count) :
    Nat.ofDigits (256 ^ size) (words size count bytes) = ofLe bytes := by
  induction count generalizing bytes with
  | zero =>
      rw [Nat.mul_zero] at length
      rw [List.eq_nil_of_length_eq_zero length]
      rfl
  | succ count ih =>
      have front : (bytes.take size).length = size := by
        rw [List.length_take, length, Nat.mul_succ]
        omega
      have back : (bytes.drop size).length = size * count := by
        rw [List.length_drop, length, Nat.mul_succ, Nat.add_sub_cancel]
      rw [words, Nat.ofDigits_cons, ih back]
      conv_rhs => rw [← List.take_append_drop size bytes, ofLe_append, front]

@[simp] theorem flatMap_le_length (size : Nat) (digits : List Nat) :
    (digits.flatMap (le size)).length = size * digits.length := by
  induction digits with
  | nil => rfl
  | cons digit rest ih =>
      rw [List.flatMap_cons, List.length_append, le_length, ih, List.length_cons, Nat.mul_succ,
        Nat.add_comm]

/-- Some of the words, in the bytes of all of them. -/
theorem drop_flatMap_le (size n : Nat) (digits : List Nat) :
    (digits.flatMap (le size)).drop (size * n) = (digits.drop n).flatMap (le size) := by
  induction n generalizing digits with
  | zero => rfl
  | succ n ih =>
      cases digits with
      | nil => rw [List.flatMap_nil, List.drop_nil, List.drop_nil, List.flatMap_nil]
      | cons digit rest =>
          rw [List.flatMap_cons, List.drop_succ_cons, ← ih, Nat.mul_succ, Nat.add_comm, ← List.drop_drop,
            List.drop_left' (le_length size digit)]

theorem take_flatMap_le (size n : Nat) (digits : List Nat) :
    (digits.flatMap (le size)).take (size * n) = (digits.take n).flatMap (le size) := by
  induction n generalizing digits with
  | zero => rw [Nat.mul_zero, List.take_zero, List.take_zero, List.flatMap_nil]
  | succ n ih =>
      cases digits with
      | nil => rw [List.flatMap_nil, List.take_nil, List.take_nil, List.flatMap_nil]
      | cons digit rest =>
          have room : (le size digit).length ≤ size * n + size := by
            rw [le_length]
            exact Nat.le_add_left _ _
          rw [List.flatMap_cons, List.take_succ_cons, List.flatMap_cons, ← ih, Nat.mul_succ,
            List.take_append, List.take_of_length_le room, le_length, Nat.add_sub_cancel]

/-- Words written out one after the other. -/
theorem ofLe_flatMap_le {size : Nat} {digits : List Nat} (below : ∀ digit ∈ digits, digit < 256 ^ size) :
    ofLe (digits.flatMap (le size)) = Nat.ofDigits (256 ^ size) digits := by
  induction digits with
  | nil => rfl
  | cons digit rest ih =>
      obtain ⟨first, later⟩ := List.forall_mem_cons.mp below
      rw [List.flatMap_cons, ofLe_append, ofLe_le, Nat.mod_eq_of_lt first, le_length, ih later,
        Nat.ofDigits_cons]

end Bytes

end Blindplane.Lib
