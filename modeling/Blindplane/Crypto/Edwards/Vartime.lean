import Blindplane.Crypto.Edwards.ScalarMul

/-! # Variable-time double-scalar multiplication

Signature verification computes `[a]A + [b]B` from tables of odd multiples, one doubling
for every position of the two non-adjacent forms and an addition where a digit is not
zero. The loop is written once; what the tables differ in is the cached form of their
entries and the window width that form pays for.
-/

namespace Blindplane.Crypto

open Lib Curve25519

/-- The shared inversion: products of what comes before, then of all. -/
def prefixProducts : (running : Fe) → List EdwardsPoint → List Fe × Fe
  | running, [] => ([], running)
  | running, point :: odd =>
      let (later, total) := prefixProducts (running.mul point.z) odd
      (running :: later, total)

/-- Unwind backward: the inverse of each `z`, and the inverse of what comes before them. -/
def unwind : List EdwardsPoint → (before : List Fe) → (suffixInverse : Fe) → List Fe × Fe
  | point :: odd, product :: before, suffixInverse =>
      let (later, suffixInverse) := unwind odd before suffixInverse
      (suffixInverse.mul product :: later, suffixInverse.mul point.z)
  | _, _, suffixInverse => ([], suffixInverse)

/-- Normalise to `Z = 1` and cache. -/
def EdwardsPoint.toAffineNiels (point : EdwardsPoint) (zInverse : Fe) : AffineNiels :=
  let x := point.x.mul zInverse
  let y := point.y.mul zInverse
  { yPlusX := y.add x, yMinusX := y.sub x, xy2d := (x.mul y).mul D2 }

theorem EdwardsPoint.Denotes.toAffineNiels {point : EdwardsPoint} {A : Point} (denotes : point.Denotes A)
    {zInverse : Fe} (inverse : zInverse.val = point.z.val⁻¹) : (point.toAffineNiels zInverse).Denotes A := by
  have x : (point.x.mul zInverse).val = A.x := by
    rw [Fe.mul_val, inverse, denotes.x, mul_inv_cancel_right₀ denotes.z]
  have y : (point.y.mul zInverse).val = A.y := by
    rw [Fe.mul_val, inverse, denotes.y, mul_inv_cancel_right₀ denotes.z]
  constructor
  · rw [EdwardsPoint.toAffineNiels, Fe.add_val, x, y]
  · rw [EdwardsPoint.toAffineNiels, Fe.sub_val, x, y]
  · rw [EdwardsPoint.toAffineNiels, Fe.mul_val, Fe.mul_val, x, y, D2_val]
    ring

/-- One inversion serves every point whose `z` is not zero. -/
theorem unwind_spec {odd : List EdwardsPoint} (units : ∀ point ∈ odd, point.z.val ≠ 0) :
    ∀ {running suffixInverse : Fe}, running.val ≠ 0 →
      suffixInverse.val = (prefixProducts running odd).2.val⁻¹ →
      (unwind odd (prefixProducts running odd).1 suffixInverse).2.val = running.val⁻¹ ∧
      List.Forall₂ (fun (point : EdwardsPoint) (zInverse : Fe) => zInverse.val = point.z.val⁻¹) odd
        (unwind odd (prefixProducts running odd).1 suffixInverse).1 := by
  induction odd with
  | nil => exact fun _ inverse => ⟨inverse, .nil⟩
  | cons point odd ih =>
      intro running suffixInverse unit inverse
      obtain ⟨here, later⟩ := List.forall_mem_cons.mp units
      have product : (running.mul point.z).val = running.val * point.z.val := Fe.mul_val running point.z
      have nonzero : (running.mul point.z).val ≠ 0 := by
        rw [product]
        exact mul_ne_zero unit here
      obtain ⟨rest, inverses⟩ := ih later nonzero inverse
      rw [product] at rest
      simp only [prefixProducts, unwind]
      refine ⟨?_, .cons ?_ inverses⟩
      · rw [Fe.mul_val, rest, mul_inv, inv_mul_cancel_right₀ here]
      · rw [Fe.mul_val, rest, mul_inv, mul_right_comm, inv_mul_cancel₀ unit, one_mul]

namespace EdwardsPoint

/-- A point and what adding the base over and over makes of it. -/
theorem getElem?_multiples {base : EdwardsPoint} {A : Point} (hbase : base.Denotes A) {count : Nat} :
    ∀ {current entry : EdwardsPoint} {C : Point} {i : Nat}, current.Denotes C →
      (multiples base count current)[i]? = some entry → entry.Denotes (C + i • A) := by
  induction count with
  | zero =>
      intro current entry C i _ here
      cases here
  | succ count ih =>
      intro current entry C i hcurrent here
      cases i with
      | zero =>
          rw [multiples, List.getElem?_cons_zero, Option.some.injEq] at here
          rw [zero_nsmul, add_zero, ← here]
          exact hcurrent
      | succ i =>
          rw [multiples, List.getElem?_cons_succ] at here
          have value : C + (i + 1) • A = C + A + i • A := by module
          rw [value]
          exact ih (hcurrent.add hbase) here

/-- Odd multiples `1P, 3P, 5P, ..` of a point. -/
def oddMultiples (count : Nat) (point : EdwardsPoint) : List EdwardsPoint :=
  multiples point.double count point

theorem getElem?_oddMultiples {point entry : EdwardsPoint} {A : Point} {count i : Nat}
    (denotes : point.Denotes A) (here : (oddMultiples count point)[i]? = some entry) :
    entry.Denotes ((2 * i + 1) • A) := by
  have value : (2 * i + 1) • A = A + i • (A + A) := by module
  rw [value]
  exact getElem?_multiples denotes.double denotes here

theorem oddMultiples_units {point : EdwardsPoint} {A : Point} {count : Nat} (denotes : point.Denotes A) :
    ∀ entry ∈ oddMultiples count point, entry.z.val ≠ 0 := by
  intro entry member
  obtain ⟨i, here⟩ := List.getElem?_of_mem member
  exact (getElem?_oddMultiples denotes here).z

/-- Odd multiples cached in projective-Niels form, for a key decompressed for one signature. -/
def projectiveOddMultiples (point : EdwardsPoint) : Vector ProjectiveNiels 8 :=
  ⟨((oddMultiples 8 point).map toProjectiveNiels).toArray, by
    rw [List.size_toArray, List.length_map, oddMultiples, multiples_length]⟩

/-- The inverse of every `z`, by one inversion of their product. -/
def zInverses (odd : List EdwardsPoint) : List Fe :=
  let (products, running) := prefixProducts .ONE odd
  (unwind odd products running.invert).1

theorem zInverses_spec {odd : List EdwardsPoint} (units : ∀ point ∈ odd, point.z.val ≠ 0) :
    List.Forall₂ (fun (point : EdwardsPoint) (zInverse : Fe) => zInverse.val = point.z.val⁻¹) odd
      (zInverses odd) := by
  have one : Fe.ONE.val ≠ 0 := by
    rw [Fe.ONE_val]
    exact one_ne_zero
  exact (unwind_spec units one (Fe.invert_val _)).2

theorem unwind_length (odd : List EdwardsPoint) :
    ∀ running suffixInverse, (unwind odd (prefixProducts running odd).1 suffixInverse).1.length = odd.length := by
  induction odd with
  | nil => exact fun _ _ => rfl
  | cons point odd ih =>
      intro running suffixInverse
      exact congrArg Nat.succ (ih (running.mul point.z) suffixInverse)

/-- Odd multiples `1P, 3P, .., 127P` of a point in affine-Niels form. -/
def affineOddMultiples (point : EdwardsPoint) : Vector AffineNiels 64 :=
  let odd := oddMultiples 64 point
  ⟨(List.zipWith toAffineNiels odd (zInverses odd)).toArray, by
    rw [List.size_toArray, List.length_zipWith, zInverses, unwind_length, Nat.min_self]
    exact multiples_length point.double 64 point⟩

/-- An entry is made from the multiple in its place and the inverse of that multiple's `z`. -/
theorem getElem?_affineOddMultiples {point : EdwardsPoint} (units : ∀ multiple ∈ oddMultiples 64 point, multiple.z.val ≠ 0)
    {i : Nat} {entry : AffineNiels} (here : point.affineOddMultiples.toList[i]? = some entry) :
    ∃ multiple zInverse, (oddMultiples 64 point)[i]? = some multiple ∧
      (zInverses (oddMultiples 64 point))[i]? = some zInverse ∧ zInverse.val = multiple.z.val⁻¹ ∧
      entry = multiple.toAffineNiels zInverse := by
  rw [affineOddMultiples, Vector.toList_mk, List.toList_toArray, List.getElem?_zipWith_eq_some] at here
  obtain ⟨multiple, zInverse, first, second, rfl⟩ := here
  obtain ⟨inside, rfl⟩ := List.getElem?_eq_some_iff.mp first
  obtain ⟨within, rfl⟩ := List.getElem?_eq_some_iff.mp second
  exact ⟨_, _, first, second, (zInverses_spec units).get inside within, rfl⟩

theorem denotes_affineOddMultiples {point : EdwardsPoint} {A : Point} (denotes : point.Denotes A) {i : Nat}
    {entry : AffineNiels} (here : point.affineOddMultiples.toList[i]? = some entry) : entry.Denotes ((2 * i + 1) • A) := by
  obtain ⟨multiple, zInverse, place, -, inverse, rfl⟩ := getElem?_affineOddMultiples (oddMultiples_units denotes) here
  exact (getElem?_oddMultiples denotes place).toAffineNiels inverse

/-- The shared inversion gives every multiple the inverse of its own `z`, so an entry of the
    table caches the affine coordinates of the multiple in its place. Of a point of the curve
    no multiple has a zero `z`, and entry `i` caches `(2i + 1)A`. -/
theorem affineOddMultiples_exact (point : EdwardsPoint) :
    ((∀ multiple ∈ oddMultiples 64 point, multiple.z.val ≠ 0) →
      ∀ (i : Nat) (inside : i < 64), ∃ multiple zInverse, (oddMultiples 64 point)[i]? = some multiple ∧
        (zInverses (oddMultiples 64 point))[i]? = some zInverse ∧ zInverse.val * multiple.z.val = 1 ∧
        point.affineOddMultiples[i].yPlusX.val = multiple.y.val / multiple.z.val + multiple.x.val / multiple.z.val ∧
        point.affineOddMultiples[i].yMinusX.val = multiple.y.val / multiple.z.val - multiple.x.val / multiple.z.val ∧
        point.affineOddMultiples[i].xy2d.val =
          2 * d * (multiple.x.val / multiple.z.val) * (multiple.y.val / multiple.z.val)) ∧
    ∀ A : Point, point.Denotes A → (∀ multiple ∈ oddMultiples 64 point, multiple.z.val ≠ 0) ∧
      ∀ (i : Nat) (inside : i < 64),
        (∀ multiple, (oddMultiples 64 point)[i]? = some multiple → multiple.Denotes ((2 * i + 1) • A)) ∧
        point.affineOddMultiples[i].yPlusX.val = ((2 * i + 1) • A).y + ((2 * i + 1) • A).x ∧
        point.affineOddMultiples[i].yMinusX.val = ((2 * i + 1) • A).y - ((2 * i + 1) • A).x ∧
        point.affineOddMultiples[i].xy2d.val = 2 * d * ((2 * i + 1) • A).x * ((2 * i + 1) • A).y := by
  have entry : ∀ (i : Nat) (inside : i < 64), point.affineOddMultiples.toList[i]? = some point.affineOddMultiples[i] := by
    intro i inside
    simp [inside]
  constructor
  · intro units i inside
    obtain ⟨multiple, zInverse, here, own, inverse, cached⟩ := getElem?_affineOddMultiples units (entry i inside)
    have unit := units multiple (List.mem_of_getElem? here)
    refine ⟨multiple, zInverse, here, own, ?_, ?_, ?_, ?_⟩
    · rw [inverse, inv_mul_cancel₀ unit]
    · simp only [cached, toAffineNiels, Fe.add_val, Fe.mul_val, inverse, div_eq_mul_inv]
    · simp only [cached, toAffineNiels, Fe.sub_val, Fe.mul_val, inverse, div_eq_mul_inv]
    · simp only [cached, toAffineNiels, Fe.mul_val, D2_val, inverse, div_eq_mul_inv]
      ring
  · intro A denotes
    refine ⟨oddMultiples_units denotes, ?_⟩
    intro i inside
    have caches := denotes_affineOddMultiples denotes (entry i inside)
    exact ⟨fun _ here => getElem?_oddMultiples denotes here, caches.yPlusX, caches.yMinusX, caches.xy2d⟩

/-- The table of the base point. -/
theorem affineOddMultiples_exact_basepoint :
    BASEPOINT.affineOddMultiples[63].yPlusX.val = (127 • Curve25519.B).y + (127 • Curve25519.B).x :=
  (((affineOddMultiples_exact BASEPOINT).2 Curve25519.B BASEPOINT_denotes).2 63 (by decide)).2.1

end EdwardsPoint

section Tables

/-- A table of odd multiples the verification loop adds from. -/
class OddMultiples (T : Type) where
  /-- NAF window width matching the table's size. -/
  WIDTH : Nat
  /-- Add the multiple named by a non-zero signed NAF digit. -/
  addSigned : (table : T) → (point : EdwardsPoint) → (digit : Int8) → CompletedPoint

open OddMultiples

/-- Where the multiple that an odd digit names stands in a table. -/
def entryIndex (digit : Int8) : Nat :=
  if digit.toInt > 0 then digit.toInt.toNat / 2 else (-digit.toInt).toNat / 2

/-- Add the entry that an odd digit names, or its negation. The digits of the table's width
    stay inside it. -/
def addEntry {N : Type} {size : Nat} [NeZero size] (add : EdwardsPoint → N → CompletedPoint) (negate : N → N)
    (table : Vector N size) (point : EdwardsPoint) (digit : Int8) : CompletedPoint :=
  let entry := table.get (Fin.ofNat size (entryIndex digit))
  if digit.toInt > 0 then add point entry else add point (negate entry)

/-- Odd multiples `1A, 3A, .., 15A` of a point decompressed for one signature. -/
instance : OddMultiples (Vector ProjectiveNiels 8) where
  WIDTH := 5
  addSigned := addEntry EdwardsPoint.addProjectiveNiels ProjectiveNiels.negate

/-- Odd multiples `1P, 3P, .., 127P` normalised to `Z = 1` ahead of time. -/
instance : OddMultiples (Vector AffineNiels 64) where
  WIDTH := 8
  addSigned := addEntry EdwardsPoint.addAffineNiels AffineNiels.negate

/-- Adding what a digit names adds that multiple of the point, for every digit that a
    non-adjacent form of the table's width has. -/
structure OddMultiples.Serves {T : Type} [OddMultiples T] (table : T) (A : Point) : Prop where
  low : 2 ≤ WIDTH T
  high : WIDTH T ≤ 8
  addSigned : ∀ {point : EdwardsPoint} {C : Point} {digit : Int8}, point.Denotes C →
    Scalar.IsNafDigit (WIDTH T) digit → digit ≠ 0 →
    (OddMultiples.addSigned table point digit).Denotes (C + digit.toInt • A)

section Entries

variable {N : Type} {size : Nat} [NeZero size] {denotes : N → Point → Prop} {table : Vector N size} {A : Point}

/-- An odd number within twice the size names the entry that is its multiple. -/
private theorem entry_of_odd (entries : ∀ i entry, table.toList[i]? = some entry → denotes entry ((2 * i + 1) • A))
    {n : Nat} (odd : n % 2 = 1) (small : n < 2 * size) :
    denotes (table.get (Fin.ofNat size (n / 2))) (n • A) := by
  have inside : n / 2 < size := by omega
  have index : Fin.ofNat size (n / 2) = ⟨n / 2, inside⟩ := Fin.ext (Nat.mod_eq_of_lt inside)
  have same : table.get (Fin.ofNat size (n / 2)) = table[n / 2] := by
    rw [index]
    rfl
  have number : 2 * (n / 2) + 1 = n := by omega
  have here := entries (n / 2) table[n / 2] (by simp [inside])
  rwa [number, ← same] at here

/-- Adding named entries, from what adding and negating an entry do. -/
private theorem addEntry_denotes {add : EdwardsPoint → N → CompletedPoint} {negate : N → N}
    (entries : ∀ i entry, table.toList[i]? = some entry → denotes entry ((2 * i + 1) • A))
    (adds : ∀ {point : EdwardsPoint} {entry : N} {C E : Point}, point.Denotes C → denotes entry E →
      (add point entry).Denotes (C + E))
    (negates : ∀ {entry : N} {E : Point}, denotes entry E → denotes (negate entry) (-E))
    {point : EdwardsPoint} {C : Point} {digit : Int8} (hpoint : point.Denotes C)
    (odd : digit.toInt % 2 = 1) (small : digit.toInt.natAbs < 2 * size) :
    (addEntry add negate table point digit).Denotes (C + digit.toInt • A) := by
  simp only [addEntry, entryIndex]
  by_cases positive : digit.toInt > 0
  · have value : digit.toInt • A = digit.toInt.toNat • A := by
      rw [← natCast_zsmul, Int.toNat_of_nonneg positive.le]
    rw [if_pos positive, if_pos positive, value]
    exact adds hpoint (entry_of_odd entries (by omega) (by omega))
  · have value : digit.toInt • A = -((-digit.toInt).toNat • A) := by
      rw [← natCast_zsmul, ← neg_zsmul]
      congr 1
      omega
    rw [if_neg positive, if_neg positive, value]
    exact adds hpoint (negates (entry_of_odd entries (by omega) (by omega)))

end Entries

theorem projective_serves {point : EdwardsPoint} {A : Point} (denotes : point.Denotes A) :
    OddMultiples.Serves point.projectiveOddMultiples A := by
  have entries : ∀ i (entry : ProjectiveNiels), point.projectiveOddMultiples.toList[i]? = some entry →
      entry.Denotes ((2 * i + 1) • A) := by
    intro i entry here
    rw [EdwardsPoint.projectiveOddMultiples, Vector.toList_mk, List.toList_toArray, List.getElem?_map,
      Option.map_eq_some_iff] at here
    obtain ⟨multiple, here, rfl⟩ := here
    exact (EdwardsPoint.getElem?_oddMultiples denotes here).toProjectiveNiels
  constructor
  · decide
  · decide
  · intro extended C digit hextended isDigit nonzero
    obtain ⟨odd, small⟩ := isDigit.resolve_left nonzero
    exact addEntry_denotes entries EdwardsPoint.Denotes.addProjectiveNiels ProjectiveNiels.Denotes.negate
      hextended odd small

theorem affine_serves {point : EdwardsPoint} {A : Point} (denotes : point.Denotes A) :
    OddMultiples.Serves point.affineOddMultiples A := by
  have entries : ∀ i (entry : AffineNiels), point.affineOddMultiples.toList[i]? = some entry →
      entry.Denotes ((2 * i + 1) • A) := fun _ _ here => EdwardsPoint.denotes_affineOddMultiples denotes here
  constructor
  · decide
  · decide
  · intro extended C digit hextended isDigit nonzero
    obtain ⟨odd, small⟩ := isDigit.resolve_left nonzero
    exact addEntry_denotes entries EdwardsPoint.Denotes.addAffineNiels AffineNiels.Denotes.negate
      hextended odd small

end Tables

section Loop

open OddMultiples

/-- The position the loop starts from: leading zeros of both forms are skipped. -/
def topPosition (aNaf bNaf : List Int8) : (i : Nat) → Nat
  | 0 => 0
  | i + 1 => if aNaf.getD (i + 1) 0 = 0 ∧ bNaf.getD (i + 1) 0 = 0 then topPosition aNaf bNaf i else i + 1

section Position

variable {T U : Type} [OddMultiples T] [OddMultiples U]

/-- One position of the loop: double, then add what the digits that are not zero name. -/
def addDigits (oddA : T) (oddB : U) (a b : Int8) (acc : ProjectivePoint) : CompletedPoint :=
  let completed := acc.double
  if a ≠ 0 ∨ b ≠ 0 then
    let extended := completed.toExtended
    let completed := if a ≠ 0 then addSigned oddA extended a else completed
    if b ≠ 0 then
      let extended := if a ≠ 0 then completed.toExtended else extended
      addSigned oddB extended b
    else completed
  else completed

/-- The positions from `i` down, the extended coordinates formed at the last. -/
def doubleScalarLoop (oddA : T) (oddB : U) (aNaf bNaf : List Int8) (acc : ProjectivePoint) :
    (i : Nat) → EdwardsPoint
  | 0 => (addDigits oddA oddB (aNaf.getD 0 0) (bNaf.getD 0 0) acc).toExtended
  | i + 1 =>
      let completed := addDigits oddA oddB (aNaf.getD (i + 1) 0) (bNaf.getD (i + 1) 0) acc
      doubleScalarLoop oddA oddB aNaf bNaf completed.toProjective i

variable {oddA : T} {oddB : U} {A B : Point}

theorem addDigits_denotes (servesA : Serves oddA A) (servesB : Serves oddB B) {a b : Int8}
    (isA : Scalar.IsNafDigit (WIDTH T) a) (isB : Scalar.IsNafDigit (WIDTH U) b) {acc : ProjectivePoint}
    {C : Point} (denotes : acc.Denotes C) :
    (addDigits oddA oddB a b acc).Denotes (C + C + a.toInt • A + b.toInt • B) := by
  have doubled := denotes.double
  rw [addDigits]
  by_cases zeroA : a = 0 <;> by_cases zeroB : b = 0
  · subst zeroA zeroB
    simpa using doubled
  · subst zeroA
    simpa [zeroB] using servesB.addSigned doubled.toExtended isB zeroB
  · subst zeroB
    simpa [zeroA] using servesA.addSigned doubled.toExtended isA zeroA
  · have first := servesA.addSigned doubled.toExtended isA zeroA
    simpa [zeroA, zeroB] using servesB.addSigned first.toExtended isB zeroB

/-- The digits from the top down to a position, as multiples of the two points. -/
def combination (aNaf bNaf : List Int8) (A B : Point) (position : Nat) : Point :=
  Scalar.digitsValue 2 (aNaf.drop position) • A + Scalar.digitsValue 2 (bNaf.drop position) • B

private theorem digitsValue_drop {naf : List Int8} {position : Nat} (inside : position < naf.length) :
    Scalar.digitsValue 2 (naf.drop position) =
      (naf.getD position 0).toInt + 2 * Scalar.digitsValue 2 (naf.drop (position + 1)) := by
  have here : (naf.map Int8.toInt)[position]? = some (naf.getD position 0).toInt := by
    rw [List.getElem?_map, List.getElem?_eq_getElem inside, Option.map_some,
      List.getD_eq_getElem naf 0 inside]
  rw [Scalar.digitsValue, Scalar.digitsValue, List.map_drop, List.map_drop, signedValue_drop here]

variable {aNaf bNaf : List Int8}

/-- What a position adds to the digits above it. -/
theorem combination_eq {position : Nat} (insideA : position < aNaf.length) (insideB : position < bNaf.length) :
    combination aNaf bNaf A B position =
      combination aNaf bNaf A B (position + 1) + combination aNaf bNaf A B (position + 1) +
        (aNaf.getD position 0).toInt • A + (bNaf.getD position 0).toInt • B := by
  rw [combination, digitsValue_drop insideA, digitsValue_drop insideB, combination]
  module

/-- Nothing lies above the position that the loop starts from. -/
theorem combination_topPosition {i : Nat} (insideA : i < aNaf.length) (insideB : i < bNaf.length)
    (above : combination aNaf bNaf A B (i + 1) = 0) :
    combination aNaf bNaf A B (topPosition aNaf bNaf i + 1) = 0 := by
  induction i with
  | zero => exact above
  | succ i ih =>
      rw [topPosition]
      split
      · rename_i zero
        apply ih (by omega) (by omega)
        rw [combination_eq insideA insideB, above, zero.1, zero.2]
        simp
      · exact above

theorem topPosition_le (i : Nat) : topPosition aNaf bNaf i ≤ i := by
  induction i with
  | zero => exact Nat.le_refl 0
  | succ i ih =>
      rw [topPosition]
      split
      · omega
      · exact Nat.le_refl (i + 1)

private theorem isNafDigit_getD {width : Nat} {naf : List Int8} (digits : ∀ digit ∈ naf, Scalar.IsNafDigit width digit)
    (position : Nat) : Scalar.IsNafDigit width (naf.getD position 0) := by
  by_cases inside : position < naf.length
  · rw [List.getD_eq_getElem naf 0 inside]
    exact digits _ (List.getElem_mem inside)
  · rw [List.getD_eq_default naf 0 (Nat.le_of_not_lt inside)]
    exact .inl rfl

/-- Whatever the accumulator holds of the digits above, the loop returns all of them. -/
theorem doubleScalarLoop_denotes (servesA : Serves oddA A) (servesB : Serves oddB B)
    (digitsA : ∀ digit ∈ aNaf, Scalar.IsNafDigit (WIDTH T) digit)
    (digitsB : ∀ digit ∈ bNaf, Scalar.IsNafDigit (WIDTH U) digit) :
    ∀ {i : Nat} {acc : ProjectivePoint}, i < aNaf.length → i < bNaf.length →
      acc.Denotes (combination aNaf bNaf A B (i + 1)) →
      (doubleScalarLoop oddA oddB aNaf bNaf acc i).Denotes (combination aNaf bNaf A B 0) := by
  intro i
  induction i with
  | zero =>
      intro acc insideA insideB denotes
      have step := addDigits_denotes servesA servesB (isNafDigit_getD digitsA 0) (isNafDigit_getD digitsB 0) denotes
      rw [← combination_eq insideA insideB] at step
      exact step.toExtended
  | succ i ih =>
      intro acc insideA insideB denotes
      have step := addDigits_denotes servesA servesB (isNafDigit_getD digitsA (i + 1))
        (isNafDigit_getD digitsB (i + 1)) denotes
      rw [← combination_eq insideA insideB] at step
      exact ih (by omega) (by omega) step.toProjective

end Position

end Loop

namespace EdwardsPoint

open OddMultiples

/-- `1B, 3B, .., 127B`, constant and shared by every verification. -/
def basepointAffineOddMultiples : Vector AffineNiels 64 := BASEPOINT.affineOddMultiples

/-- Variable-time `[a]A + [b]B`, with the odd multiples of `A` in whichever cached form. -/
def doubleScalarMul {T : Type} [OddMultiples T] (a : Scalar) (oddA : T) (b : Scalar) : EdwardsPoint :=
  let oddB := basepointAffineOddMultiples
  let aNaf := a.nonAdjacentForm (WIDTH T)
  let bNaf := b.nonAdjacentForm (WIDTH (Vector AffineNiels 64))
  doubleScalarLoop oddA oddB aNaf bNaf .IDENTITY (topPosition aNaf bNaf 255)

/-- Variable-time `[a]A + [b]B` for a key decompressed for this signature. -/
def vartimeDoubleScalarMulBasepoint (a : Scalar) (bigA : EdwardsPoint) (b : Scalar) : EdwardsPoint :=
  doubleScalarMul a bigA.projectiveOddMultiples b

/-- Variable-time `[a]A + [b]B` where the odd multiples of `A` arrive already prepared. -/
def vartimeDoubleScalarMulPrepared (a : Scalar) (oddA : Vector AffineNiels 64) (b : Scalar) : EdwardsPoint :=
  doubleScalarMul a oddA b

theorem doubleScalarMul_denotes {T : Type} [OddMultiples T] {oddA : T} {A : Point} (serves : Serves oddA A)
    (a b : Scalar) : (doubleScalarMul a oddA b).Denotes (a.val • A + b.val • Curve25519.B) := by
  have servesB : Serves basepointAffineOddMultiples Curve25519.B := affine_serves BASEPOINT_denotes
  obtain ⟨valueA, digitsA, lengthA⟩ := a.nonAdjacentForm_spec serves.low serves.high
  obtain ⟨valueB, digitsB, lengthB⟩ := b.nonAdjacentForm_spec servesB.low servesB.high
  have value : combination (a.nonAdjacentForm (WIDTH T)) (b.nonAdjacentForm (WIDTH (Vector AffineNiels 64))) A
      Curve25519.B 0 = a.val • A + b.val • Curve25519.B := by
    rw [combination, List.drop_zero, List.drop_zero, valueA, valueB, natCast_zsmul, natCast_zsmul]
  have above : combination (a.nonAdjacentForm (WIDTH T)) (b.nonAdjacentForm (WIDTH (Vector AffineNiels 64))) A
      Curve25519.B (255 + 1) = 0 := by
    rw [combination, List.drop_eq_nil_of_le lengthA.le, List.drop_eq_nil_of_le lengthB.le, Scalar.digitsValue,
      List.map_nil, signedValue_nil, zero_zsmul, zero_zsmul, add_zero]
  have top := combination_topPosition (by rw [lengthA]; decide) (by rw [lengthB]; decide) above
  have below := @topPosition_le (a.nonAdjacentForm (WIDTH T)) (b.nonAdjacentForm (WIDTH (Vector AffineNiels 64))) 255
  rw [← value]
  apply doubleScalarLoop_denotes serves servesB digitsA digitsB
  · omega
  · omega
  · rw [top]
    exact ProjectivePoint.IDENTITY_denotes

theorem vartimeDoubleScalarMulBasepoint_denotes {bigA : EdwardsPoint} {A : Point} (denotes : bigA.Denotes A)
    (a b : Scalar) :
    (vartimeDoubleScalarMulBasepoint a bigA b).Denotes (a.val • A + b.val • Curve25519.B) :=
  doubleScalarMul_denotes (projective_serves denotes) a b

theorem vartimeDoubleScalarMulPrepared_denotes {bigA : EdwardsPoint} {A : Point} (denotes : bigA.Denotes A)
    (a b : Scalar) :
    (vartimeDoubleScalarMulPrepared a bigA.affineOddMultiples b).Denotes (a.val • A + b.val • Curve25519.B) :=
  doubleScalarMul_denotes (affine_serves denotes) a b

/-- An odd digit of a non-adjacent form stays inside a table of its width's size. -/
private theorem entryIndex_lt {width size : Nat} (whole : 2 ^ (width - 1) = 2 * size) {digit : Int8}
    (isDigit : Scalar.IsNafDigit width digit) (nonzero : digit ≠ 0) : entryIndex digit < size := by
  obtain ⟨-, small⟩ := isDigit.resolve_left nonzero
  rw [entryIndex]
  split <;> omega

/-- Both multiplications give the combination of the two points, and no digit reaches past
    the table that it is looked up in. -/
theorem vartimeDoubleScalarMul_denotes {bigA : EdwardsPoint} {A : Point} (denotes : bigA.Denotes A) (a b : Scalar) :
    (vartimeDoubleScalarMulBasepoint a bigA b).Denotes (a.val • A + b.val • Curve25519.B) ∧
    (vartimeDoubleScalarMulPrepared a bigA.affineOddMultiples b).Denotes (a.val • A + b.val • Curve25519.B) ∧
    (∀ digit ∈ a.nonAdjacentForm (WIDTH (Vector ProjectiveNiels 8)), digit ≠ 0 → entryIndex digit < 8) ∧
    (∀ digit ∈ a.nonAdjacentForm (WIDTH (Vector AffineNiels 64)), digit ≠ 0 → entryIndex digit < 64) ∧
    (∀ digit ∈ b.nonAdjacentForm (WIDTH (Vector AffineNiels 64)), digit ≠ 0 → entryIndex digit < 64) := by
  have narrow := (@Scalar.nonAdjacentForm_spec a 5 (by decide) (by decide)).2.1
  have wide : ∀ s : Scalar, ∀ digit ∈ s.nonAdjacentForm 8, Scalar.IsNafDigit 8 digit := fun s =>
    (@Scalar.nonAdjacentForm_spec s 8 (by decide) (by decide)).2.1
  refine ⟨vartimeDoubleScalarMulBasepoint_denotes denotes a b, vartimeDoubleScalarMulPrepared_denotes denotes a b,
    ?_, ?_, ?_⟩
  · exact fun digit member => entryIndex_lt (show 2 ^ (5 - 1) = 2 * 8 from rfl) (narrow digit member)
  · exact fun digit member => entryIndex_lt (show 2 ^ (8 - 1) = 2 * 64 from rfl) (wide a digit member)
  · exact fun digit member => entryIndex_lt (show 2 ^ (8 - 1) = 2 * 64 from rfl) (wide b digit member)

/-- The combination of the base point with itself. -/
theorem vartimeDoubleScalarMul_basepoint :
    (vartimeDoubleScalarMulBasepoint (.fromWideBytes (.replicate 64 1)) BASEPOINT
      (.fromWideBytes (.replicate 64 2))).Denotes
      ((Scalar.fromWideBytes (.replicate 64 1)).val • Curve25519.B +
        (Scalar.fromWideBytes (.replicate 64 2)).val • Curve25519.B) :=
  (vartimeDoubleScalarMul_denotes BASEPOINT_denotes _ _).1

end EdwardsPoint

end Blindplane.Crypto
