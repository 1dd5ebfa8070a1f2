import Blindplane.Crypto.Edwards.Encoding
import Blindplane.Crypto.Scalar.Digits
import Mathlib.Tactic.Module

/-! # Fixed-base multiplication

The base point times a secret scalar, from a table of its multiples at every radix-16
position. A digit selects from its row without branching; the rows add up to the product.
-/

namespace Blindplane.Crypto

open Lib Curve25519

namespace EdwardsPoint

section Tables

/-- A point and its successive multiples. -/
def multiples (base : EdwardsPoint) : (count : Nat) → (current : EdwardsPoint) → List EdwardsPoint
  | 0, _ => []
  | count + 1, current => current :: multiples base count (current.add base)

/-- `[1..8] * 16^i * base` for successive radix-16 positions. -/
def radix16Table : (rows : Nat) → (base : EdwardsPoint) → List (List EdwardsPoint)
  | 0, _ => []
  | rows + 1, base => multiples base 8 base :: radix16Table rows base.double.double.double.double

/-- `[1..8] * 16^i * B` for every one of the 64 radix-16 positions. -/
def basepointTable : List (List EdwardsPoint) := radix16Table 64 BASEPOINT

theorem multiples_length (base : EdwardsPoint) (count : Nat) :
    ∀ current, (multiples base count current).length = count := by
  induction count with
  | zero => exact fun _ => rfl
  | succ count ih => exact fun current => congrArg Nat.succ (ih (current.add base))

/-- The entries of a row denote consecutive multiples, the first of them the `first`-th. -/
def RowDenotes (A : Point) : (first : Nat) → List EdwardsPoint → Prop
  | _, [] => True
  | first, entry :: rest => entry.Denotes (first • A) ∧ RowDenotes A (first + 1) rest

theorem multiples_denotes {base current : EdwardsPoint} {A : Point} (hbase : base.Denotes A) (count : Nat) :
    ∀ {first : Nat}, current.Denotes (first • A) → RowDenotes A first (multiples base count current) := by
  induction count generalizing current with
  | zero => exact fun _ => trivial
  | succ count ih =>
      intro first hcurrent
      refine ⟨hcurrent, ih ?_⟩
      rw [succ_nsmul]
      exact hcurrent.add hbase

end Tables

section Selection

/-- Select coordinate by coordinate. -/
def select (p q : EdwardsPoint) (choice : Choice) : EdwardsPoint where
  x := Fe.select p.x q.x choice
  y := Fe.select p.y q.y choice
  z := Fe.select p.z q.z choice
  t := Fe.select p.t q.t choice

theorem select_eq (p q : EdwardsPoint) (choice : Choice) :
    select p q choice = if choice.isSet then q else p := by
  rw [select, Fe.select_eq, Fe.select_eq, Fe.select_eq, Fe.select_eq]
  split <;> rfl

/-- Touch every entry of a row and keep the one whose number is the magnitude. -/
def selectMagnitude (magnitude : Nat) : (index : Nat) → (selected : EdwardsPoint) → List EdwardsPoint →
    EdwardsPoint
  | _, selected, [] => selected
  | index, selected, point :: rest =>
      let hit := ctEqU64 magnitude (index + 1)
      selectMagnitude magnitude (index + 1) (select selected point hit) rest

/-- `|digit|`, computed without branching. -/
def magnitude (digit : Int8) : Nat :=
  let negative := Choice.fromBit (digit.toUInt8 >>> 7).toNat
  let sign : Int16 := if negative.isSet then 1 else 0
  let magnitude := (digit.toInt16 ^^^ -sign) + sign
  magnitude.toInt64.toUInt64.toNat

/-- Select `|digit| * P` from a table and negate it when the digit is negative. -/
def selectSigned (table : List EdwardsPoint) (digit : Int8) : EdwardsPoint :=
  let negative := Choice.fromBit (digit.toUInt8 >>> 7).toNat
  let selected := selectMagnitude (magnitude digit) 0 IDENTITY table
  let negated := selected.negate
  { x := Fe.select selected.x negated.x negative
    y := selected.y
    z := selected.z
    t := Fe.select selected.t negated.t negative }

private theorem digit_spec : ∀ n < 256,
    magnitude (Int8.ofNat n) = (Int8.ofNat n).toInt.natAbs ∧
      ((Choice.fromBit ((Int8.ofNat n).toUInt8 >>> 7).toNat).isSet = true ↔ (Int8.ofNat n).toInt < 0) := by
  decide +kernel

/-- Eight bits are all there is to a digit. -/
private theorem Int8.ofNat_toUInt8_toNat (digit : Int8) : Int8.ofNat digit.toUInt8.toNat = digit := by
  rw [← UInt8.toInt8_ofNat', UInt8.ofNat_toNat, Int8.toInt8_toUInt8]

theorem magnitude_eq (digit : Int8) : magnitude digit = digit.toInt.natAbs := by
  have spec := (digit_spec digit.toUInt8.toNat digit.toUInt8.toNat_lt).1
  rwa [Int8.ofNat_toUInt8_toNat] at spec

theorem negative_iff (digit : Int8) :
    (Choice.fromBit (digit.toUInt8 >>> 7).toNat).isSet = true ↔ digit.toInt < 0 := by
  have spec := (digit_spec digit.toUInt8.toNat digit.toUInt8.toNat_lt).2
  rwa [Int8.ofNat_toUInt8_toNat] at spec

/-- Past the magnitude nothing is selected; up to it, its multiple is. -/
theorem selectMagnitude_denotes {A : Point} {magnitude : Nat} (fits : magnitude < 2 ^ 64) {row : List EdwardsPoint} :
    ∀ {index : Nat} {selected : EdwardsPoint}, index + row.length < 2 ^ 64 → RowDenotes A (index + 1) row →
      (magnitude ≤ index → selectMagnitude magnitude index selected row = selected) ∧
      (index < magnitude → magnitude ≤ index + row.length →
        (selectMagnitude magnitude index selected row).Denotes (magnitude • A)) := by
  induction row with
  | nil =>
      intro index selected _ _
      refine ⟨fun _ => rfl, fun above below => ?_⟩
      rw [List.length_nil] at below
      omega
  | cons point rest ih =>
      intro index selected inside denotes
      rw [List.length_cons] at inside
      obtain ⟨here, later⟩ := denotes
      have hit : (ctEqU64 magnitude (index + 1)).isSet = decide (magnitude = index + 1) :=
        isSet_ctEqU64 fits (by omega)
      obtain ⟨past, upTo⟩ := @ih (index + 1) (select selected point (ctEqU64 magnitude (index + 1)))
        (by omega) later
      rw [selectMagnitude, List.length_cons]
      constructor
      · intro below
        rw [past (by omega), select_eq, hit, if_neg]
        rw [decide_eq_true_eq]
        omega
      · intro above below
        by_cases same : magnitude = index + 1
        · rw [past (by omega), select_eq, hit, if_pos (decide_eq_true same), same]
          exact here
        · exact upTo (by omega) (by omega)

/-- A signed digit selects its multiple from a row of the eight first ones. -/
theorem selectSigned_denotes {A : Point} {row : List EdwardsPoint} (length : row.length = 8)
    (denotes : RowDenotes A 1 row) {digit : Int8} (small : digit.toInt.natAbs ≤ 8) :
    (selectSigned row digit).Denotes (digit.toInt • A) := by
  have selected : (selectMagnitude (magnitude digit) 0 IDENTITY row).Denotes (digit.toInt.natAbs • A) := by
    rw [magnitude_eq]
    obtain ⟨past, upTo⟩ :=
      @selectMagnitude_denotes A digit.toInt.natAbs (by omega) row 0 IDENTITY (by omega) denotes
    by_cases zero : digit.toInt.natAbs = 0
    · rw [past (Nat.le_of_eq zero), zero, zero_nsmul]
      exact IDENTITY_denotes
    · exact upTo (Nat.pos_of_ne_zero zero) (by omega)
  have sign := negative_iff digit
  rw [selectSigned]
  generalize selectMagnitude (magnitude digit) 0 IDENTITY row = chosen at selected
  simp only [Fe.select_eq]
  by_cases negative : digit.toInt < 0
  · have value : digit.toInt • A = -(digit.toInt.natAbs • A) := by
      rw [← natCast_zsmul, ← neg_zsmul]
      congr 1
      omega
    rw [if_pos (sign.mpr negative), if_pos (sign.mpr negative), value]
    exact selected.negate
  · have value : digit.toInt • A = digit.toInt.natAbs • A := by
      rw [← natCast_zsmul]
      congr 1
      omega
    have unset := mt sign.mp negative
    rw [if_neg unset, if_neg unset, value]
    exact selected

end Selection

section Multiplication

/-- The digits from the highest down: four doublings, then the multiple that the digit
    selects. -/
def mulDigits (table : List EdwardsPoint) : (digits : List Int8) → EdwardsPoint
  | [] => IDENTITY
  | digit :: digits =>
      let acc := (mulDigits table digits).double.double.double.double
      acc.add (selectSigned table digit)

/-- Multiplication by a secret scalar, from a table of `[1..8]P`. -/
def mul (p : EdwardsPoint) (scalar : Scalar) : EdwardsPoint := mulDigits (multiples p 8 p) scalar.radix16

/-- Add up the multiples that the digits select, a row for each position. -/
def addRows (acc : EdwardsPoint) : (table : List (List EdwardsPoint)) → (digits : List Int8) → EdwardsPoint
  | row :: table, digit :: digits => addRows (acc.add (selectSigned row digit)) table digits
  | _, _ => acc

/-- Multiplication of the base point by a secret scalar. -/
def mulBase (scalar : Scalar) : EdwardsPoint := addRows IDENTITY basepointTable scalar.radix16

theorem row_denotes {p : EdwardsPoint} {A : Point} (denotes : p.Denotes A) : RowDenotes A 1 (multiples p 8 p) :=
  multiples_denotes denotes 8 (by rwa [one_nsmul])

theorem addRows_denotes {digits : List Int8} (small : ∀ digit ∈ digits, digit.toInt.natAbs ≤ 8) :
    ∀ {acc base : EdwardsPoint} {A C : Point}, acc.Denotes C → base.Denotes A →
      (addRows acc (radix16Table digits.length base) digits).Denotes (C + Scalar.digitsValue 16 digits • A) := by
  induction digits with
  | nil =>
      intro acc base A C hacc _
      rw [Scalar.digitsValue, List.map_nil, signedValue_nil, zero_zsmul, add_zero]
      exact hacc
  | cons digit digits ih =>
      intro acc base A C hacc hbase
      obtain ⟨first, later⟩ := List.forall_mem_cons.mp small
      have sixteen := hbase.double.double.double.double
      have step := ih later (hacc.add (selectSigned_denotes (multiples_length base 8 base) (row_denotes hbase) first)) sixteen
      have value : C + Scalar.digitsValue 16 (digit :: digits) • A =
          C + digit.toInt • A + Scalar.digitsValue 16 digits •
            (A + A + (A + A) + (A + A + (A + A)) + (A + A + (A + A) + (A + A + (A + A)))) := by
        rw [Scalar.digitsValue, List.map_cons, signedValue_cons, Scalar.digitsValue]
        module
      rw [value]
      exact step

theorem mulBase_denotes (a : Scalar) : (mulBase a).Denotes (a.val • Curve25519.B) := by
  obtain ⟨value, small, length⟩ := a.radix16_spec
  have denotes := addRows_denotes small IDENTITY_denotes BASEPOINT_denotes
  rw [length, value, natCast_zsmul, zero_add] at denotes
  exact denotes

theorem mulDigits_denotes {A : Point} {table : List EdwardsPoint} (length : table.length = 8)
    (row : RowDenotes A 1 table) {digits : List Int8} (small : ∀ digit ∈ digits, digit.toInt.natAbs ≤ 8) :
    (mulDigits table digits).Denotes (Scalar.digitsValue 16 digits • A) := by
  induction digits with
  | nil =>
      rw [Scalar.digitsValue, List.map_nil, signedValue_nil, zero_zsmul]
      exact IDENTITY_denotes
  | cons digit digits ih =>
      obtain ⟨first, later⟩ := List.forall_mem_cons.mp small
      have shifted := (ih later).double.double.double.double
      have step := shifted.add (selectSigned_denotes length row first)
      have value : ∀ C : Point, C + C + (C + C) + (C + C + (C + C)) +
          (C + C + (C + C) + (C + C + (C + C))) = (16 : Int) • C := fun C => by module
      rw [value, smul_smul, ← add_zsmul, add_comm] at step
      rw [Scalar.digitsValue, List.map_cons, signedValue_cons]
      exact step

/-- Fixed-base and variable-base multiplication agree: both are the multiple of the point,
    and so is what a digit selects. -/
theorem mul_denotes {p : EdwardsPoint} {A : Point} (denotes : p.Denotes A) :
    (∀ s : Scalar, (p.mul s).Denotes (s.val • A)) ∧
    (∀ s : Scalar, (mulBase s).Denotes (s.val • Curve25519.B) ∧
      (BASEPOINT.mul s).Denotes (s.val • Curve25519.B)) ∧
    (∀ digit : Int8, -8 ≤ digit.toInt → digit.toInt ≤ 8 →
      (selectSigned (multiples p 8 p) digit).Denotes (digit.toInt • A)) := by
  have general : ∀ {p : EdwardsPoint} {A : Point}, p.Denotes A → ∀ s : Scalar, (p.mul s).Denotes (s.val • A) := by
    intro p A denotes s
    obtain ⟨value, small, -⟩ := s.radix16_spec
    have product := mulDigits_denotes (multiples_length p 8 p) (row_denotes denotes) small
    rwa [value, natCast_zsmul] at product
  refine ⟨general denotes, fun s => ⟨mulBase_denotes s, general BASEPOINT_denotes s⟩, ?_⟩
  intro digit low high
  exact selectSigned_denotes (multiples_length p 8 p) (row_denotes denotes) (by omega)

theorem basepoint_mul_denotes : (BASEPOINT.mul (.fromWideBytes (.replicate 64 1))).Denotes
    ((Scalar.fromWideBytes (.replicate 64 1)).val • Curve25519.B) :=
  (mul_denotes BASEPOINT_denotes).1 _

end Multiplication

end EdwardsPoint

end Blindplane.Crypto
