import Blindplane.Crypto.Scalar.Element
import Blindplane.Lib.SignedDigits

/-! # Signed digits of scalars

Two ways of writing a scalar in signed digits: in radix 16 for the fixed-base table, and in
non-adjacent form for verification. Both add up to the scalar, and no digit leaves the
range of the table it selects from.
-/

namespace Blindplane.Crypto

open Lib Curve25519

namespace Scalar

/-- The number of 8-bit signed digits. -/
abbrev digitsValue (base : Int) (digits : List Int8) : Int := signedValue base (digits.map Int8.toInt)

section Radix16

/-- Rewrite each digit by borrowing from the next one; the last takes what is left. -/
def recenter (carry : Int8) : List Int8 → List Int8
  | [] => []
  | [top] => [top + carry]
  | digit :: next :: rest =>
      let digit := digit + carry
      let carry := (digit + 8) >>> 4
      (digit - (carry <<< 4)) :: recenter carry (next :: rest)

/-- Split into 64 signed radix-16 digits in `[-8, 8]`. -/
def radix16 (a : Scalar) : List Int8 :=
  recenter 0 (a.toBytes.toList.flatMap fun byte : UInt8 =>
    [(byte &&& 0x0f).toInt8, ((byte >>> 4) &&& 0x0f).toInt8])

/-- One digit and its carry, over every digit there is. -/
private theorem recenter_digit : ∀ n < 16, ∀ c < 2,
    ∃ k < 2, (Int8.ofNat n + Int8.ofNat c + 8) >>> 4 = Int8.ofNat k ∧
      (Int8.ofNat n + Int8.ofNat c - (Int8.ofNat k <<< 4)).toInt + 16 * k = n + c ∧
      (Int8.ofNat n + Int8.ofNat c - (Int8.ofNat k <<< 4)).toInt.natAbs ≤ 8 := by
  decide

private theorem top_digit : ∀ n < 8, ∀ c < 2,
    (Int8.ofNat n + Int8.ofNat c).toInt = n + c ∧ (Int8.ofNat n + Int8.ofNat c).toInt.natAbs ≤ 8 := by
  decide

/-- Nibbles under a small top one. -/
theorem recenter_spec {nibbles : List Nat} {top : Nat} (below : ∀ n ∈ nibbles, n < 16) (small : top < 8) :
    ∀ c < 2,
      digitsValue 16 (recenter (Int8.ofNat c) ((nibbles ++ [top]).map Int8.ofNat)) =
          (Nat.ofDigits 16 (nibbles ++ [top]) : Nat) + c ∧
        (∀ digit ∈ recenter (Int8.ofNat c) ((nibbles ++ [top]).map Int8.ofNat), digit.toInt.natAbs ≤ 8) ∧
        (recenter (Int8.ofNat c) ((nibbles ++ [top]).map Int8.ofNat)).length = nibbles.length + 1 := by
  induction nibbles with
  | nil =>
      intro c bit
      obtain ⟨value, range⟩ := top_digit top small c bit
      simp only [List.nil_append, List.map_cons, List.map_nil, recenter, digitsValue, signedValue_cons,
        signedValue_nil, Nat.ofDigits_singleton, List.forall_mem_singleton]
      exact ⟨by rw [value, mul_zero, add_zero], range, rfl⟩
  | cons n rest ih =>
      intro c bit
      obtain ⟨first, later⟩ := List.forall_mem_cons.mp below
      obtain ⟨k, kBit, carry, value, range⟩ := recenter_digit n first c bit
      obtain ⟨restValue, restRange, restLength⟩ := ih later k kBit
      have step : recenter (Int8.ofNat c) ((n :: rest ++ [top]).map Int8.ofNat) =
          (Int8.ofNat n + Int8.ofNat c - (Int8.ofNat k <<< 4)) ::
            recenter (Int8.ofNat k) ((rest ++ [top]).map Int8.ofNat) := by
        cases rest with
        | nil => simp only [List.cons_append, List.nil_append, List.map_cons, List.map_nil, recenter, carry]
        | cons m rest => simp only [List.cons_append, List.map_cons, recenter, carry]
      rw [step]
      refine ⟨?_, List.forall_mem_cons.mpr ⟨range, restRange⟩, by rw [List.length_cons, restLength]; rfl⟩
      rw [digitsValue, List.map_cons, signedValue_cons]
      rw [digitsValue] at restValue
      rw [restValue, List.cons_append, Nat.ofDigits_cons]
      push_cast
      linear_combination value

/-- The nibbles of a byte. -/
private theorem byte_nibbles : ∀ n < 256,
    (UInt8.ofNat n &&& 0x0f).toInt8 = Int8.ofNat (n % 16) ∧
      ((UInt8.ofNat n >>> 4) &&& 0x0f).toInt8 = Int8.ofNat (n / 16) := by
  decide +kernel

/-- The nibbles of a byte string, lowest first. -/
private def nibbles (bytes : Bytes) : List Nat :=
  bytes.flatMap fun byte : UInt8 => [byte.toNat % 16, byte.toNat / 16]

private theorem nibbles_below (bytes : Bytes) : ∀ n ∈ nibbles bytes, n < 16 := by
  intro n member
  obtain ⟨byte, -, inside⟩ := List.mem_flatMap.mp member
  have fits := byte.toNat_lt
  simp only [List.mem_cons, List.not_mem_nil, or_false] at inside
  omega

private theorem nibbles_length (bytes : Bytes) : (nibbles bytes).length = 2 * bytes.length := by
  induction bytes with
  | nil => rfl
  | cons byte rest ih =>
      have later : (nibbles (byte :: rest)).length = 2 + (nibbles rest).length := by
        rw [nibbles, List.flatMap_cons, List.length_append, nibbles]
        rfl
      rw [later, ih, List.length_cons]
      omega

private theorem nibbles_value (bytes : Bytes) : Nat.ofDigits 16 (nibbles bytes) = Bytes.ofLe bytes := by
  induction bytes with
  | nil => rfl
  | cons byte rest ih =>
      have split : nibbles (byte :: rest) = byte.toNat % 16 :: byte.toNat / 16 :: nibbles rest := rfl
      rw [split, Nat.ofDigits_cons, Nat.ofDigits_cons, ih, Bytes.ofLe_cons]
      omega

private theorem nibbles_map (bytes : Bytes) :
    (bytes.flatMap fun byte : UInt8 => [(byte &&& 0x0f).toInt8, ((byte >>> 4) &&& 0x0f).toInt8]) =
      (nibbles bytes).map Int8.ofNat := by
  rw [nibbles, List.map_flatMap]
  refine List.flatMap_congr fun byte _ => ?_
  obtain ⟨low, high⟩ := byte_nibbles byte.toNat byte.toNat_lt
  rw [UInt8.ofNat_toNat] at low high
  rw [low, high]
  rfl

/-- The digits add up to the scalar, each of them in the range of the table. -/
theorem radix16_spec (a : Scalar) :
    digitsValue 16 a.radix16 = a.val ∧ (∀ digit ∈ a.radix16, digit.toInt.natAbs ≤ 8) ∧
      a.radix16.length = 64 := by
  have length : (nibbles a.toBytes.toList).length = 63 + 1 := by
    rw [nibbles_length, Vector.length_toList]
  have nonempty : nibbles a.toBytes.toList ≠ [] := List.ne_nil_of_length_eq_add_one length
  obtain ⟨front, top, split⟩ : ∃ front top, nibbles a.toBytes.toList = front ++ [top] :=
    ⟨_, _, (List.dropLast_concat_getLast nonempty).symm⟩
  have below := nibbles_below a.toBytes.toList
  have value := nibbles_value a.toBytes.toList
  rw [split, List.length_append] at length
  rw [split, ofLe_toBytes] at value
  rw [split] at below
  have frontLength : front.length = 63 := Nat.succ.inj length
  -- a reduced scalar is below `2^253`, so its top nibble is hardly used
  have small : top < 8 := by
    have order : L < 16 ^ 63 * 8 := by norm_num [L]
    have reduced := a.val_lt
    rw [← value, Nat.ofDigits_append, frontLength, Nat.ofDigits_singleton] at reduced
    have above := Nat.le_add_left (16 ^ 63 * top) (Nat.ofDigits 16 front)
    exact Nat.lt_of_mul_lt_mul_left (Nat.lt_of_le_of_lt above (Nat.lt_trans reduced order))
  have spec := recenter_spec (fun n member => below n (List.mem_append_left _ member)) small 0
    (by decide)
  rw [value, frontLength] at spec
  rw [radix16, nibbles_map, split]
  exact ⟨spec.1.trans (by rw [Nat.cast_zero, add_zero]), spec.2.1, spec.2.2⟩

end Radix16

section NonAdjacentForm

/-- The bits of a number in limbs from position `pos` on, at least `width` of them. -/
def windowBits (width : Nat) (x : List Nat) (pos : Nat) : Nat :=
  let limb := pos / 64
  let bit := pos % 64
  if bit < 64 - width then x.getD limb 0 >>> bit
  else (x.getD limb 0 >>> bit) ||| (x.getD (limb + 1) 0 <<< (64 - bit)) % 2 ^ 64

/-- The loop over the positions: emit a digit at the next odd window, with a borrow from
    the window after it when it is in the upper half. -/
def nafLoop (width : Nat) (x : List Nat) : (fuel pos carry : Nat) → List Int8 → List Int8
  | 0, _, _, naf => naf
  | fuel + 1, pos, carry, naf =>
      if pos < 256 then
        let radix := 2 ^ width
        let window := carry + (windowBits width x pos &&& (radix - 1))
        if window % 2 = 0 then
          -- digits are odd by construction; skip an even position
          nafLoop width x fuel (pos + 1) carry naf
        else if window < radix / 2 then
          nafLoop width x fuel (pos + width) 0 (naf.set pos (Int8.ofNat window))
        else
          nafLoop width x fuel (pos + width) 1
            (naf.set pos (Int16.ofNat window - Int16.ofNat radix).toInt8)
      else naf

/-- Split into a non-adjacent form of the given width. -/
def nonAdjacentForm (a : Scalar) (width : Nat) : List Int8 :=
  nafLoop width (a.limbs ++ [0]) 256 0 0 (List.replicate 256 0)

/-- Digits of a window reaching over a limb boundary are digits of the number. -/
private theorem window_across (v bit : Nat) (inside : bit ≤ 64) :
    v % 2 ^ 64 / 2 ^ bit + v / 2 ^ 64 % 2 ^ 64 % 2 ^ bit * 2 ^ (64 - bit) = v / 2 ^ bit % 2 ^ 64 := by
  have whole : 2 ^ bit * 2 ^ (64 - bit) = 2 ^ 64 := by rw [← Nat.pow_add, Nat.add_sub_cancel' inside]
  have low : v % 2 ^ 64 / 2 ^ bit = v / 2 ^ bit % 2 ^ (64 - bit) := by
    rw [← whole, Nat.mod_mul_right_div_self]
  have high : v / 2 ^ bit / 2 ^ (64 - bit) = v / 2 ^ 64 := by rw [Nat.div_div_eq_div_mul, whole]
  have split := @Nat.mod_mul (2 ^ (64 - bit)) (2 ^ bit) (v / 2 ^ bit)
  rw [Nat.mul_comm (2 ^ (64 - bit)), whole, high] at split
  rw [split, low, Nat.mod_mod_of_dvd _ (Nat.pow_dvd_pow 2 inside), Nat.mul_comm (2 ^ (64 - bit))]

theorem windowBits_eq {width n : Nat} {x : List Nat} (numeral : Numeral WORD n x) (narrow : width ≤ 64)
    (pos : Nat) :
    windowBits width x pos &&& (2 ^ width - 1) = Nat.ofDigits WORD x / 2 ^ pos % 2 ^ width := by
  have position : 64 * (pos / 64) + pos % 64 = pos := Nat.div_add_mod pos 64
  have inside : pos % 64 < 64 := Nat.mod_lt pos (by decide)
  have limb : x.getD (pos / 64) 0 = Nat.ofDigits WORD x / 2 ^ (64 * (pos / 64)) % 2 ^ 64 := by
    rw [numeral.getD (by decide), ← Nat.pow_mul]
  have nextLimb : x.getD (pos / 64 + 1) 0 =
      Nat.ofDigits WORD x / 2 ^ (64 * (pos / 64)) / 2 ^ 64 % 2 ^ 64 := by
    rw [numeral.getD (by decide), Nat.div_div_eq_div_mul, ← Nat.pow_mul, ← Nat.pow_add, Nat.mul_succ]
  have shifted : Nat.ofDigits WORD x / 2 ^ pos =
      Nat.ofDigits WORD x / 2 ^ (64 * (pos / 64)) / 2 ^ (pos % 64) := by
    rw [Nat.div_div_eq_div_mul, ← Nat.pow_add, position]
  simp only [windowBits]
  rw [limb, nextLimb, shifted, and_mask]
  generalize Nat.ofDigits WORD x / 2 ^ (64 * (pos / 64)) = v
  generalize pos % 64 = bit at inside
  split
  · next within =>
    have whole : 2 ^ bit * 2 ^ (64 - bit) = 2 ^ 64 := by
      rw [← Nat.pow_add, Nat.add_sub_cancel' inside.le]
    rw [Nat.shiftRight_eq_div_pow, ← whole, Nat.mod_mul_right_div_self,
      Nat.mod_mod_of_dvd _ (Nat.pow_dvd_pow 2 (by omega))]
  · rw [Nat.shiftRight_eq_div_pow]
    have low : v % 2 ^ 64 / 2 ^ bit < 2 ^ (64 - bit) := by
      rw [Nat.div_lt_iff_lt_mul (Nat.two_pow_pos bit), ← Nat.pow_add, Nat.sub_add_cancel inside.le]
      exact Nat.mod_lt v (Nat.two_pow_pos 64)
    rw [or_shiftLeft_mod low (Nat.add_sub_cancel' inside.le), window_across v bit inside.le,
      Nat.mod_mod_of_dvd _ (Nat.pow_dvd_pow 2 narrow)]

/-- The digits a table of the given width is indexed by. -/
def IsNafDigit (width : Nat) (digit : Int8) : Prop :=
  digit = 0 ∨ (digit.toInt % 2 = 1 ∧ digit.toInt.natAbs < 2 ^ (width - 1))

/-- What holds of the loop when it comes to a position: the digits emitted and what is
    still to be read make up the number, and a borrow is only taken below the top. -/
structure NafInvariant (width v pos carry : Nat) (naf : List Int8) : Prop where
  length : naf.length = 256
  digits : ∀ digit ∈ naf, IsNafDigit width digit
  later : ∀ i, pos ≤ i → i < 256 → naf[i]? = some 0
  borrow : carry = 0 ∨ (carry = 1 ∧ pos ≤ 254)
  value : digitsValue 2 naf + (carry + v / 2 ^ pos : Nat) * 2 ^ pos = v

private theorem radix_eq {width : Nat} (positive : 1 ≤ width) : 2 ^ width = 2 * 2 ^ (width - 1) := by
  rw [← Nat.pow_succ', Nat.succ_eq_add_one, Nat.sub_add_cancel positive]

/-- A digit in the lower half of its window range. -/
private theorem low_digit {width window : Nat} (low : 2 ≤ width) (high : width ≤ 8)
    (odd : window % 2 = 1) (below : window < 2 ^ width / 2) :
    (Int8.ofNat window).toInt = window ∧ IsNafDigit width (Int8.ofNat window) := by
  have radix : 2 ^ width ≤ 2 ^ 8 := Nat.pow_le_pow_right (by decide) high
  have half := @radix_eq width (by omega)
  have value : (Int8.ofNat window).toInt = window := Int8.toInt_ofNat_of_lt (by omega)
  refine ⟨value, .inr ⟨?_, ?_⟩⟩
  · rw [value]
    omega
  · rw [value, Int.natAbs_natCast]
    omega

/-- A digit in the upper half, with the radix borrowed. -/
private theorem high_digit {width window : Nat} (low : 2 ≤ width) (high : width ≤ 8)
    (odd : window % 2 = 1) (below : window ≤ 2 ^ width) (above : ¬ window < 2 ^ width / 2) :
    (Int16.ofNat window - Int16.ofNat (2 ^ width)).toInt8.toInt = window - (2 ^ width : Nat) ∧
      IsNafDigit width (Int16.ofNat window - Int16.ofNat (2 ^ width)).toInt8 := by
  have radix : 2 ^ width ≤ 2 ^ 8 := Nat.pow_le_pow_right (by decide) high
  have half := @radix_eq width (by omega)
  have quarter := @radix_eq (width - 1) (by omega)
  have wide : (Int16.ofNat window - Int16.ofNat (2 ^ width)).toInt = window - (2 ^ width : Nat) := by
    rw [Int16.toInt_sub, Int16.toInt_ofNat_of_lt (by omega), Int16.toInt_ofNat_of_lt (by omega),
      Int.bmod_eq_of_le (by omega) (by omega)]
  have value : (Int16.ofNat window - Int16.ofNat (2 ^ width)).toInt8.toInt =
      window - (2 ^ width : Nat) := by
    rw [Int16.toInt_toInt8, wide, Int.bmod_eq_of_le (by omega) (by omega)]
  refine ⟨value, .inr ⟨?_, ?_⟩⟩
  · rw [value]
    omega
  · rw [value]
    omega

theorem NafInvariant.skip {width v pos carry : Nat} {naf : List Int8}
    (invariant : NafInvariant width v pos carry naf) (positive : 1 ≤ width) (small : v < 2 ^ 253)
    (even : (carry + v / 2 ^ pos % 2 ^ width) % 2 = 0) :
    NafInvariant width v (pos + 1) carry naf := by
  have parity : (carry + v / 2 ^ pos) % 2 = 0 := by
    rw [Nat.add_mod, ← Nat.mod_mod_of_dvd (v / 2 ^ pos) (dvd_pow_self 2 (show width ≠ 0 by omega)),
      ← Nat.add_mod, even]
  have half : v / 2 ^ (pos + 1) = v / 2 ^ pos / 2 := by rw [Nat.pow_succ, Nat.div_div_eq_div_mul]
  refine ⟨invariant.length, invariant.digits, fun i above => invariant.later i (by omega), ?_, ?_⟩
  · apply invariant.borrow.imp_right
    rintro ⟨rfl, -⟩
    -- a borrow is carried over an odd rest, so the rest is not exhausted
    have rest : 1 ≤ v / 2 ^ pos := by
      generalize v / 2 ^ pos = rest at parity
      omega
    have covered : 2 ^ pos < 2 ^ 253 :=
      Nat.lt_of_le_of_lt ((Nat.one_le_div_iff (Nat.two_pow_pos pos)).mp rest) small
    have below := (Nat.pow_lt_pow_iff_right (by decide)).mp covered
    exact ⟨rfl, by omega⟩
  · have twice : carry + v / 2 ^ pos = 2 * (carry + v / 2 ^ (pos + 1)) := by
      have borrow := invariant.borrow
      rw [half]
      generalize v / 2 ^ pos = rest at parity
      omega
    have value := invariant.value
    rw [twice] at value
    generalize v / 2 ^ (pos + 1) = rest at value
    rw [pow_succ, ← value]
    push_cast
    ring

theorem NafInvariant.emit {width v pos carry carry' : Nat} {naf : List Int8} {digit : Int8}
    (invariant : NafInvariant width v pos carry naf) (positive : 1 ≤ width) (inside : pos < 256)
    (isDigit : IsNafDigit width digit)
    (value : digit.toInt + carry' * (2 ^ width : Nat) = (carry + v / 2 ^ pos % 2 ^ width : Nat))
    (borrow : carry' = 0 ∨ (carry' = 1 ∧ pos + width ≤ 254)) :
    NafInvariant width v (pos + width) carry' (naf.set pos digit) := by
  have zero : (naf.map Int8.toInt)[pos]? = some 0 := by
    rw [List.getElem?_map, invariant.later pos le_rfl inside]
    rfl
  refine ⟨by rw [List.length_set, invariant.length], ?_, ?_, borrow, ?_⟩
  · intro other member
    rcases List.mem_or_eq_of_mem_set member with old | rfl
    · exact invariant.digits other old
    · exact isDigit
  · intro i above below
    rw [List.getElem?_set_ne (by omega)]
    exact invariant.later i (by omega) below
  · rw [digitsValue, List.map_set, signedValue_set _ zero]
    have before := invariant.value
    have window := congrArg (Nat.cast : Nat → Int) (Nat.mod_add_div (v / 2 ^ pos) (2 ^ width))
    rw [Nat.div_div_eq_div_mul, ← Nat.pow_add] at window
    generalize v / 2 ^ (pos + width) = rest at *
    generalize v / 2 ^ pos % 2 ^ width = bits at *
    generalize v / 2 ^ pos = whole at *
    rw [pow_add]
    push_cast at before window value ⊢
    linear_combination before + 2 ^ pos * value + 2 ^ pos * window

/-- The borrow of an upper half is only taken below the top of a reduced scalar. -/
private theorem borrow_below {width v pos carry : Nat} (low : 2 ≤ width) (small : v < 2 ^ 253)
    (bit : carry ≤ 1) (above : ¬ carry + v / 2 ^ pos % 2 ^ width < 2 ^ width / 2) :
    pos + width ≤ 254 := by
  have half := @radix_eq width (by omega)
  have quarter := @radix_eq (width - 1) (by omega)
  have positive := Nat.two_pow_pos (width - 1 - 1)
  have rest : 2 ^ (width - 1 - 1) ≤ v / 2 ^ pos := by
    have le := Nat.mod_le (v / 2 ^ pos) (2 ^ width)
    omega
  have covered : 2 ^ (pos + (width - 1 - 1)) < 2 ^ 253 := by
    rw [Nat.pow_add, Nat.mul_comm]
    exact Nat.lt_of_le_of_lt ((Nat.le_div_iff_mul_le (Nat.two_pow_pos pos)).mp rest) small
  have below := (Nat.pow_lt_pow_iff_right (by decide)).mp covered
  omega

/-- `windowBits` with its reads checked. -/
def readWindow (width : Nat) (x : List Nat) (pos : Nat) : Option Nat := do
  let limb := pos / 64
  let bit := pos % 64
  let low ← x[limb]?
  if bit < 64 - width then return low >>> bit
  else
    let high ← x[limb + 1]?
    return (low >>> bit) ||| (high <<< (64 - bit)) % 2 ^ 64

/-- `nafLoop` with its reads and writes checked; the carry that is left is returned with
    the digits. -/
def runNaf (width : Nat) (x : List Nat) : (fuel pos carry : Nat) → List Int8 → Option (Nat × List Int8)
  | 0, _, carry, naf => some (carry, naf)
  | fuel + 1, pos, carry, naf =>
      if pos < 256 then do
        let radix := 2 ^ width
        let bits ← readWindow width x pos
        let window := carry + (bits &&& (radix - 1))
        if window % 2 = 0 then runNaf width x fuel (pos + 1) carry naf
        else if pos < naf.length then
          if window < radix / 2 then
            runNaf width x fuel (pos + width) 0 (naf.set pos (Int8.ofNat window))
          else
            runNaf width x fuel (pos + width) 1
              (naf.set pos (Int16.ofNat window - Int16.ofNat radix).toInt8)
        else none
      else some (carry, naf)

/-- The fifth limb keeps every read inside. -/
theorem readWindow_eq {width : Nat} {x : List Nat} (five : x.length = 5) {pos : Nat} (inside : pos < 256) :
    readWindow width x pos = some (windowBits width x pos) := by
  have limb : pos / 64 < x.length := by omega
  have next : pos / 64 + 1 < x.length := by omega
  simp only [readWindow, windowBits, List.getElem?_eq_getElem limb, List.getElem?_eq_getElem next,
    List.getD_eq_getElem _ _ limb, List.getD_eq_getElem _ _ next]
  split
  · rfl
  · rfl

/-- Digits that have `width - 1` zeros behind them, the last one below `pos`. -/
structure Sparse (width pos : Nat) (naf : List Int8) : Prop where
  length : naf.length = 256
  before : ∀ i, naf[i]? ≠ some 0 → i < naf.length → i + width ≤ pos
  apart : ∀ i j, i < j → j < i + width → j < naf.length → naf[i]? = some 0 ∨ naf[j]? = some 0

theorem Sparse.skip {width pos : Nat} {naf : List Int8} (sparse : Sparse width pos naf) :
    Sparse width (pos + 1) naf where
  length := sparse.length
  before i nonzero inside := Nat.le_succ_of_le (sparse.before i nonzero inside)
  apart := sparse.apart

theorem Sparse.emit {width pos : Nat} {naf : List Int8} (sparse : Sparse width pos naf) (digit : Int8) :
    Sparse width (pos + width) (naf.set pos digit) where
  length := by rw [List.length_set, sparse.length]
  before := by
    intro i nonzero inside
    rw [List.length_set] at inside
    by_cases here : pos = i
    · exact Nat.le_of_eq (congrArg (· + width) here.symm)
    · rw [List.getElem?_set_ne here] at nonzero
      exact Nat.le_trans (sparse.before i nonzero inside) (Nat.le_add_right pos width)
  apart := by
    intro i j before near inside
    rw [List.length_set] at inside
    by_cases first : pos = i
    · -- behind the digit everything is still zero
      refine .inr ?_
      rw [List.getElem?_set_ne (by omega)]
      by_contra nonzero
      have passed := sparse.before j nonzero inside
      omega
    · rw [List.getElem?_set_ne first]
      by_cases second : pos = j
      · -- the digit before this one lies a whole window back
        refine .inl ?_
        by_contra nonzero
        have passed := sparse.before i nonzero (by omega)
        omega
      · rw [List.getElem?_set_ne second]
        exact sparse.apart i j before near inside

/-- What the loop keeps. -/
structure NafState (width v pos carry : Nat) (naf : List Int8) : Prop where
  invariant : NafInvariant width v pos carry naf
  sparse : Sparse width pos naf

/-- One round of the loop. -/
theorem NafState.step {width v pos carry : Nat} {naf : List Int8} (low : 2 ≤ width) (high : width ≤ 8)
    (small : v < 2 ^ 253) (inside : pos < 256) (state : NafState width v pos carry naf) {window : Nat}
    (read : window = carry + v / 2 ^ pos % 2 ^ width) :
    (window % 2 = 0 → NafState width v (pos + 1) carry naf) ∧
      (window % 2 ≠ 0 → window < 2 ^ width / 2 →
        NafState width v (pos + width) 0 (naf.set pos (Int8.ofNat window))) ∧
      (window % 2 ≠ 0 → ¬ window < 2 ^ width / 2 →
        NafState width v (pos + width) 1 (naf.set pos (Int16.ofNat window - Int16.ofNat (2 ^ width)).toInt8)) := by
  obtain ⟨invariant, sparse⟩ := state
  have bit : carry ≤ 1 := by
    have borrow := invariant.borrow
    omega
  have bits := Nat.mod_lt (v / 2 ^ pos) (Nat.two_pow_pos width)
  refine ⟨?_, ?_, ?_⟩
  · intro even
    rw [read] at even
    exact ⟨invariant.skip (by omega) small even, sparse.skip⟩
  · intro odd below
    obtain ⟨value, isDigit⟩ := low_digit low high (by omega) below
    refine ⟨invariant.emit (by omega) inside isDigit ?_ (.inl rfl), sparse.emit _⟩
    rw [value, read]
    simp
  · intro odd above
    obtain ⟨value, isDigit⟩ := high_digit low high (by omega) (by omega) above
    rw [read] at above
    refine ⟨invariant.emit (by omega) inside isDigit ?_ (.inr ⟨rfl, borrow_below low small bit above⟩), sparse.emit _⟩
    rw [value, read]
    simp

/-- The loop keeps its state and reaches the end with every read inside, and there nothing
    is borrowed. -/
theorem nafLoop_spec {width : Nat} {x : List Nat} (low : 2 ≤ width) (high : width ≤ 8)
    (numeral : Numeral WORD 5 x) (small : Nat.ofDigits WORD x < 2 ^ 253) :
    ∀ {fuel pos carry : Nat} {naf : List Int8}, 256 ≤ pos + fuel →
      NafState width (Nat.ofDigits WORD x) pos carry naf →
      runNaf width x fuel pos carry naf = some (0, nafLoop width x fuel pos carry naf) ∧
        ∃ last, 256 ≤ last ∧ NafState width (Nat.ofDigits WORD x) last 0 (nafLoop width x fuel pos carry naf) := by
  have finished : ∀ {pos carry : Nat} {naf : List Int8}, 256 ≤ pos →
      NafState width (Nat.ofDigits WORD x) pos carry naf →
      carry = 0 ∧ ∃ last, 256 ≤ last ∧ NafState width (Nat.ofDigits WORD x) last 0 naf := by
    intro pos carry naf past state
    rcases state.invariant.borrow with rfl | ⟨-, below⟩
    · exact ⟨rfl, pos, past, state⟩
    · omega
  intro fuel
  induction fuel with
  | zero =>
      intro pos carry naf enough state
      obtain ⟨rfl, done⟩ := finished enough state
      exact ⟨rfl, done⟩
  | succ fuel ih =>
      intro pos carry naf enough state
      rw [runNaf, nafLoop]
      by_cases inside : pos < 256
      · have written : pos < naf.length := by rwa [state.sparse.length]
        obtain ⟨even, lower, upper⟩ := state.step low high small inside rfl
        simp only [if_pos inside, readWindow_eq numeral.length inside, Option.bind_eq_bind, Option.bind_some,
          windowBits_eq numeral (show width ≤ 64 by omega), if_pos written]
        generalize carry + Nat.ofDigits WORD x / 2 ^ pos % 2 ^ width = window at even lower upper ⊢
        by_cases parity : window % 2 = 0
        · rw [if_pos parity, if_pos parity]
          exact ih (by omega) (even parity)
        · rw [if_neg parity, if_neg parity]
          by_cases half : window < 2 ^ width / 2
          · rw [if_pos half, if_pos half]
            exact ih (by omega) (lower parity half)
          · rw [if_neg half, if_neg half]
            exact ih (by omega) (upper parity half)
      · rw [if_neg inside, if_neg inside]
        obtain ⟨rfl, done⟩ := finished (Nat.not_lt.mp inside) state
        exact ⟨rfl, done⟩

/-- The loop over a scalar, from its start to its end. -/
private theorem nonAdjacentForm_loop (a : Scalar) {width : Nat} (low : 2 ≤ width) (high : width ≤ 8) :
    runNaf width (a.limbs ++ [0]) 256 0 0 (List.replicate 256 0) = some (0, a.nonAdjacentForm width) ∧
      ∃ last, 256 ≤ last ∧ a.val / 2 ^ last = 0 ∧ NafState width a.val last 0 (a.nonAdjacentForm width) := by
  have padded : Numeral WORD 5 (a.limbs ++ [0]) := a.numeral.append (Numeral.zeros (by decide) 1)
  have same : Nat.ofDigits WORD (a.limbs ++ [0]) = a.val := by
    rw [Nat.ofDigits_append, Nat.ofDigits_singleton, Nat.mul_zero, Nat.add_zero, val]
  have small : a.val < 2 ^ 253 := Nat.lt_trans a.val_lt L_lt_two_pow
  have invariant : NafInvariant width a.val 0 0 (List.replicate 256 0) := by
    refine ⟨List.length_replicate, ?_, fun i _ below => List.getElem?_replicate_of_lt below, .inl rfl, ?_⟩
    · intro digit member
      exact .inl (List.eq_of_mem_replicate member)
    · have zeros : digitsValue 2 (List.replicate 256 0) = 0 := by
        rw [digitsValue, List.map_replicate]
        exact signedValue_eq_zero fun _ => List.eq_of_mem_replicate
      rw [zeros]
      simp
  have sparse : Sparse width 0 (List.replicate 256 0) := by
    have zero (i : Nat) (inside : i < (List.replicate 256 (0 : Int8)).length) :
        (List.replicate 256 (0 : Int8))[i]? = some 0 := by
      rw [List.length_replicate] at inside
      exact List.getElem?_replicate_of_lt inside
    refine ⟨List.length_replicate, ?_, ?_⟩
    · intro i nonzero inside
      exact absurd (zero i inside) nonzero
    · intro i j before _ inside
      exact .inr (zero j inside)
  have start : NafState width (Nat.ofDigits WORD (a.limbs ++ [0])) 0 0 (List.replicate 256 0) :=
    same.symm ▸ ⟨invariant, sparse⟩
  obtain ⟨ran, last, past, state⟩ :=
    nafLoop_spec low high padded (same.symm ▸ small) (show 256 ≤ 0 + 256 by decide) start
  rw [same] at state
  have exhausted : a.val / 2 ^ last = 0 :=
    Nat.div_eq_of_lt (Nat.lt_of_lt_of_le small (Nat.pow_le_pow_right (by decide) (by omega)))
  exact ⟨ran, last, past, exhausted, state⟩

/-- The digits add up to the scalar, each of them zero or odd and in the range of a table
    of that width. -/
theorem nonAdjacentForm_spec (a : Scalar) {width : Nat} (low : 2 ≤ width) (high : width ≤ 8) :
    digitsValue 2 (a.nonAdjacentForm width) = a.val ∧
      (∀ digit ∈ a.nonAdjacentForm width, IsNafDigit width digit) ∧
      (a.nonAdjacentForm width).length = 256 := by
  obtain ⟨-, last, -, exhausted, invariant, -⟩ := nonAdjacentForm_loop a low high
  have value := invariant.value
  rw [exhausted, Nat.add_zero, Nat.cast_zero, zero_mul, add_zero] at value
  exact ⟨value, invariant.digits, invariant.length⟩

/-- Both ways of writing a scalar in signed digits. -/
theorem digits_exact (a : Scalar) :
    (a.radix16.length = 64 ∧ digitsValue 16 a.radix16 = a.val ∧
      ∀ digit ∈ a.radix16, -8 ≤ digit.toInt ∧ digit.toInt ≤ 8) ∧
    ∀ width, 2 ≤ width → width ≤ 8 →
      (a.nonAdjacentForm width).length = 256 ∧
      digitsValue 2 (a.nonAdjacentForm width) = a.val ∧
      (∀ digit ∈ a.nonAdjacentForm width, digit ≠ 0 → digit.toInt % 2 = 1 ∧ digit.toInt.natAbs < 2 ^ (width - 1)) ∧
      (∀ i j, i < j → j < i + width → j < 256 →
        (a.nonAdjacentForm width)[i]? = some 0 ∨ (a.nonAdjacentForm width)[j]? = some 0) ∧
      runNaf width (a.limbs ++ [0]) 256 0 0 (List.replicate 256 0) = some (0, a.nonAdjacentForm width) := by
  constructor
  · obtain ⟨value, range, length⟩ := radix16_spec a
    refine ⟨length, value, ?_⟩
    intro digit member
    have bound := range digit member
    omega
  · intro width low high
    obtain ⟨value, isDigit, length⟩ := nonAdjacentForm_spec a low high
    obtain ⟨ran, last, -, -, -, sparse⟩ := nonAdjacentForm_loop a low high
    refine ⟨length, value, ?_, ?_, ran⟩
    · intro digit member nonzero
      exact (isDigit digit member).resolve_left nonzero
    · intro i j before near inside
      exact sparse.apart i j before near (length.symm ▸ inside)

/-- A scalar of many ones in the widest form. -/
theorem digits_exact_ones :
    digitsValue 2 ((fromWideBytes (.replicate 64 0xff)).nonAdjacentForm 8) = (fromWideBytes (.replicate 64 0xff)).val :=
  ((digits_exact (fromWideBytes (.replicate 64 0xff))).2 8 (by decide) (by decide)).2.1

end NonAdjacentForm

end Scalar

end Blindplane.Crypto
