import Blindplane.Crypto.Edwards.Point

/-! # Compressed points

The 32-byte encoding of a point is its `y` with the parity of its `x` on top. Every point
has one encoding, and decompression accepts exactly these; whatever else the bytes may
be, it refuses them.
-/

namespace Blindplane.Crypto

open Lib Lib.TwistedEdwards Curve25519

namespace Curve25519

/-- The number that encodes a point. -/
def encodedNumber (A : Point) : Nat := A.y.val + 2 ^ 255 * (A.x.val % 2)

/-- The encoding of a point: `y`, and above it the parity of `x`. -/
def encode (A : Point) : Vector UInt8 32 := Bytes.leArray 32 (encodedNumber A)

theorem encodedNumber_lt (A : Point) : encodedNumber A < 256 ^ 32 := by
  have y := ZMod.val_lt A.y
  have order := P_lt_two_pow
  have width : 256 ^ 32 = 2 ^ 255 * 2 := by norm_num
  have parity := Nat.mod_lt A.x.val (show 0 < 2 by decide)
  rw [encodedNumber, width]
  omega

theorem ofLe_encode (A : Point) : Bytes.ofLe (encode A).toList = encodedNumber A := by
  rw [encode, Bytes.leArray_toList, Bytes.ofLe_le, Nat.mod_eq_of_lt (encodedNumber_lt A)]

theorem encode_eq_iff {A : Point} {bytes : Vector UInt8 32} :
    encode A = bytes ↔ encodedNumber A = Bytes.ofLe bytes.toList := by
  rw [← ofLe_encode, Bytes.ofLe_inj (by rw [Vector.length_toList, Vector.length_toList]),
    Vector.toList_inj]

/-- The factor of `x²` in the curve equation never vanishes, or `d` were a square. -/
theorem dy_ne_zero (y : F) : d * y ^ 2 + 1 ≠ 0 := by
  intro zero
  obtain ⟨i, root⟩ := neg_one_isSquare
  have nonzero : y ≠ 0 := by
    rintro rfl
    exact one_ne_zero (by linear_combination zero)
  refine d_nonsquare ⟨i / y, ?_⟩
  rw [div_mul_div_comm, eq_div_iff (mul_ne_zero nonzero nonzero)]
  linear_combination zero + root

theorem curve_x_sq (A : Point) : (d * A.y ^ 2 + 1) * A.x ^ 2 = A.y ^ 2 - 1 := by
  linear_combination -A.onCurve

/-- No two points have one encoding. -/
theorem encode_injective : Function.Injective encode := by
  intro A B same
  have numbers := (encode_eq_iff.mp same).trans (ofLe_encode B)
  have yA := ZMod.val_lt A.y
  have yB := ZMod.val_lt B.y
  have order := P_lt_two_pow
  simp only [encodedNumber] at numbers
  have y : A.y = B.y := ZMod.val_injective P (by omega)
  have parity : A.x.val % 2 = B.x.val % 2 := by omega
  have squares : A.x ^ 2 = B.x ^ 2 := by
    apply mul_left_cancel₀ (dy_ne_zero A.y)
    rw [curve_x_sq A, y, curve_x_sq B]
  have x : A.x = B.x := by
    rcases sq_eq_sq_iff_eq_or_eq_neg.mp squares with equal | opposite
    · exact equal
    · by_cases zero : B.x = 0
      · rw [opposite, zero, neg_zero]
      · have flipped := Fe.neg_parity zero
        rw [opposite] at parity
        omega
  exact Point.ext x y

end Curve25519

namespace EdwardsPoint

/-- Whether this is the identity element. -/
def isIdentity (p : EdwardsPoint) : Choice := p.x.isZero.and (p.y.ctEq p.z)

/-- Whether the point has order dividing 8. -/
def isSmallOrder (p : EdwardsPoint) : Choice := p.mulByCofactor.isIdentity

/-- Compress to the 32-byte RFC 8032 encoding. -/
def compress (p : EdwardsPoint) : Vector UInt8 32 :=
  let zInv := p.z.invert
  let x := p.x.mul zInv
  let y := p.y.mul zInv
  let out := y.toBytes
  out.set 31 (out[31] ^^^ (UInt8.ofNat x.isNegative.mask &&& 0x80))

/-- The second half of decompression: the point with this `y` and the `x` of this sign. -/
def recoverX (y : Fe) (sign : Choice) : Option EdwardsPoint :=
  let y2 := y.square
  let u := y2.sub Fe.ONE
  let v := (y2.mul D).add Fe.ONE
  let (x, isSquare) := Fe.sqrtRatio u v
  if ¬ isSquare.isSet then none
  -- x == 0 has only one root, so a set sign bit is a second encoding
  else if x.isZero.isSet ∧ sign.isSet then none
  else
    let x := x.conditionalNegate (x.isNegative.xor sign)
    some { x, y, z := Fe.ONE, t := x.mul y }

/-- Decompress from the 32-byte RFC 8032 encoding. -/
def decompress (bytes : Vector UInt8 32) : Option EdwardsPoint :=
  let sign := Choice.fromBit (bytes[31] >>> 7).toNat
  let yBytes := bytes.set 31 (bytes[31] &&& 0x7f)
  let y := Fe.fromBytes yBytes
  -- a non-canonical y would give two encodings per point
  if ¬ (ctEqBytes y.toBytes.toList yBytes.toList).isSet then none
  else recoverX y sign

variable {p : EdwardsPoint} {A : Point}

theorem Denotes.isSet_isIdentity (denotes : p.Denotes A) : p.isIdentity.isSet = true ↔ A = 0 := by
  rw [isIdentity, Choice.isSet_and, Fe.isSet_isZero, Fe.isSet_ctEq, Bool.and_eq_true,
    decide_eq_true_eq, decide_eq_true_eq, denotes.x, denotes.y, mul_eq_zero, or_iff_left denotes.z,
    mul_eq_right₀ denotes.z]
  exact ⟨fun ⟨x, y⟩ => Point.ext x y, fun zero => zero ▸ ⟨rfl, rfl⟩⟩

theorem Denotes.isSet_isSmallOrder (denotes : p.Denotes A) :
    p.isSmallOrder.isSet = true ↔ 8 • A = 0 :=
  denotes.mulByCofactor.isSet_isIdentity

/-- The top byte of 32, by the number it is part of. -/
private theorem top_byte (bytes : Vector UInt8 32) :
    bytes[31].toNat = Bytes.ofLe bytes.toList / 256 ^ 31 := by
  have here : bytes.toList[31]? = some bytes[31] := by simp
  have number := Bytes.ofLe_lt bytes.toList
  rw [Vector.length_toList, Nat.pow_succ] at number
  rw [Bytes.toNat_eq_of_getElem? here, Nat.mod_eq_of_lt (Nat.div_lt_of_lt_mul number)]

/-- Exchanging the top byte. -/
private theorem ofLe_set_top (bytes : Vector UInt8 32) (byte : UInt8) :
    Bytes.ofLe (bytes.set 31 byte).toList =
      Bytes.ofLe bytes.toList % 256 ^ 31 + 256 ^ 31 * byte.toNat := by
  have here : bytes.toList[31]? = some bytes[31] := by simp
  have changed := Bytes.ofLe_set here byte
  have split := Nat.mod_add_div (Bytes.ofLe bytes.toList) (256 ^ 31)
  rw [top_byte] at changed
  rw [Vector.toList_set]
  omega

/-- The top bit is the eighth of the last byte. -/
private theorem top_width : 2 ^ 255 = 256 ^ 31 * 128 := by norm_num

/-- Setting the top bit of a byte that has it clear. -/
private theorem xor_top : ∀ n < 128, ∀ bit < 2,
    (UInt8.ofNat n ^^^ (UInt8.ofNat ((2 ^ 64 - bit) % 2 ^ 64) &&& 0x80)).toNat = n + 128 * bit := by
  decide +kernel

theorem Denotes.compress (denotes : p.Denotes A) : p.compress = encode A := by
  have x : (p.x.mul p.z.invert).val = A.x := by
    rw [Fe.mul_val, Fe.invert_val, denotes.x, mul_assoc, mul_inv_cancel₀ denotes.z, mul_one]
  have y : (p.y.mul p.z.invert).val = A.y := by
    rw [Fe.mul_val, Fe.invert_val, denotes.y, mul_assoc, mul_inv_cancel₀ denotes.z, mul_one]
  have number := Fe.ofLe_toBytes (p.y.mul p.z.invert)
  rw [y] at number
  have canonical := ZMod.val_lt A.y
  have order : P < 256 ^ 31 * 128 := top_width ▸ P_lt_two_pow
  have top : (p.y.mul p.z.invert).toBytes[31].toNat < 128 := by
    rw [top_byte, number]
    exact Nat.div_lt_of_lt_mul (Nat.lt_trans canonical order)
  have mask : (p.x.mul p.z.invert).isNegative.mask = (2 ^ 64 - A.x.val % 2) % 2 ^ 64 := by
    rw [Choice.mask_eq, Fe.isSet_isNegative, x]
    have bit := Nat.mod_lt A.x.val (show 0 < 2 by decide)
    split
    · next odd =>
      rw [decide_eq_true_eq] at odd
      omega
    · next even =>
      rw [decide_eq_true_eq] at even
      omega
  have byte := xor_top _ top (A.x.val % 2) (Nat.mod_lt _ (by decide))
  rw [UInt8.ofNat_toNat, ← mask] at byte
  apply Eq.symm
  rw [encode_eq_iff, EdwardsPoint.compress, ofLe_set_top, byte, top_byte, number, encodedNumber]
  have split := Nat.mod_add_div A.y.val (256 ^ 31)
  rw [top_width, Nat.mul_add, ← Nat.add_assoc, split, Nat.mul_assoc]

/-- Clearing and reading the top bit of a byte. -/
private theorem and_top : ∀ n < 256,
    (UInt8.ofNat n &&& 0x7f).toNat = n % 128 ∧ (UInt8.ofNat n >>> 7).toNat = n / 128 := by
  decide +kernel

/-- The `y` that the bytes hold, whether or not it is canonical. -/
private theorem y_spec (bytes : Vector UInt8 32) :
    Bytes.ofLe (bytes.set 31 (bytes[31] &&& 0x7f)).toList = Bytes.ofLe bytes.toList % 2 ^ 255 := by
  obtain ⟨low, -⟩ := and_top bytes[31].toNat bytes[31].toNat_lt
  rw [UInt8.ofNat_toNat] at low
  rw [ofLe_set_top, low, top_byte, top_width, Nat.mod_mul]

private theorem sign_spec (bytes : Vector UInt8 32) :
    (Choice.fromBit (bytes[31] >>> 7).toNat).isSet = true ↔ Bytes.ofLe bytes.toList / 2 ^ 255 = 1 := by
  obtain ⟨-, high⟩ := and_top bytes[31].toNat bytes[31].toNat_lt
  rw [UInt8.ofNat_toNat] at high
  have fits := bytes[31].toNat_lt
  rw [Choice.isSet_fromBit, decide_eq_true_eq, high, top_width, ← Nat.div_div_eq_div_mul, ← top_byte]
  omega

/-- The encoded `y` is canonical when it is written back as it was read. -/
private theorem canonical_spec (bytes : Vector UInt8 32) :
    (ctEqBytes (Fe.fromBytes (bytes.set 31 (bytes[31] &&& 0x7f))).toBytes.toList
      (bytes.set 31 (bytes[31] &&& 0x7f)).toList).isSet = true ↔ Bytes.ofLe bytes.toList % 2 ^ 255 < P := by
  rw [isSet_ctEqBytes, decide_eq_true_eq,
    ← Bytes.ofLe_inj (by rw [Vector.length_toList, Vector.length_toList]), Fe.ofLe_toBytes, Fe.val,
    Fe.fromBytes_value, y_spec, Nat.mod_mod, ZMod.val_natCast]
  exact ⟨fun same => same ▸ Nat.mod_lt _ P_prime.pos, Nat.mod_eq_of_lt⟩

/-- The root with the parity that the sign asks for. -/
private theorem signed_root {root : Fe} {sign : Choice} (even : root.val.val % 2 = 0)
    (unique : ¬ (root.isZero.isSet ∧ sign.isSet)) :
    (root.conditionalNegate (root.isNegative.xor sign)).val ^ 2 = root.val ^ 2 ∧
      (root.conditionalNegate (root.isNegative.xor sign)).val.val % 2 = if sign.isSet then 1 else 0 := by
  have plain : root.isNegative.isSet = false := by
    rw [Fe.isSet_isNegative, decide_eq_false_iff_not]
    omega
  rw [Fe.isSet_isZero, decide_eq_true_eq] at unique
  rw [Fe.conditionalNegate_val, Choice.isSet_xor, plain, Bool.false_xor]
  split
  · next set =>
    have nonzero : root.val ≠ 0 := fun zero => unique ⟨zero, set⟩
    exact ⟨neg_sq _, (Fe.neg_parity nonzero).mpr even⟩
  · exact ⟨rfl, even⟩

/-- The equation that the root is taken of. -/
private theorem recoverX_root (y : Fe) :
    ((y.square.mul D).add Fe.ONE).val = d * y.val ^ 2 + 1 ∧
      (y.square.sub Fe.ONE).val = y.val ^ 2 - 1 := by
  simp only [Fe.add_val, Fe.mul_val, Fe.sub_val, Fe.square_val, Fe.ONE_val, D_val]
  exact ⟨by ring, trivial⟩

theorem recoverX_sound {y : Fe} {sign : Choice} (found : recoverX y sign = some p) :
    ∃ A, p.Denotes A ∧ A.y = y.val ∧ A.x.val % 2 = if sign.isSet then 1 else 0 := by
  obtain ⟨v, u⟩ := recoverX_root y
  simp only [recoverX] at found
  generalize (y.square.mul D).add Fe.ONE = vFe at found v
  generalize y.square.sub Fe.ONE = uFe at found u
  split at found
  · cases found
  · next square =>
    split at found
    · cases found
    · next unique =>
      obtain rfl := Option.some.inj found
      have curve := Fe.sqrtRatio_sound (not_not.mp square)
      obtain ⟨sameSquare, parity⟩ := signed_root (Fe.sqrtRatio_even uFe vFe) unique
      rw [← sameSquare, u, v] at curve
      generalize (Fe.sqrtRatio uFe vFe).1.conditionalNegate _ = x at curve parity
      refine ⟨{ x := x.val, y := y.val, onCurve := by linear_combination -curve }, ⟨?_, ?_, ?_, ?_⟩,
        rfl, parity⟩
      all_goals simp

theorem recoverX_complete {y : Fe} {sign : Choice} (same : A.y = y.val)
    (parity : A.x.val % 2 = if sign.isSet then 1 else 0) : ∃ p, recoverX y sign = some p := by
  obtain ⟨v, u⟩ := recoverX_root y
  simp only [recoverX]
  generalize (y.square.mul D).add Fe.ONE = vFe at v
  generalize y.square.sub Fe.ONE = uFe at u
  have curve : vFe.val * A.x ^ 2 = uFe.val := by
    rw [u, v, ← same]
    exact curve_x_sq A
  have square := Fe.sqrtRatio_complete curve
  have root := Fe.sqrtRatio_sound square
  rw [if_neg (not_not.mpr square), if_neg]
  · exact ⟨_, rfl⟩
  · rintro ⟨zero, set⟩
    rw [Fe.isSet_isZero, decide_eq_true_eq] at zero
    rw [zero, zero_pow (by decide), mul_zero] at root
    rw [← root, v] at curve
    have x : A.x = 0 :=
      pow_eq_zero_iff (by decide) |>.mp ((mul_eq_zero.mp curve).resolve_left (dy_ne_zero y.val))
    rw [x, ZMod.val_zero, set] at parity
    cases parity

/-- The `y` read from the bytes, when it is canonical. -/
private theorem fromBytes_y {bytes : Vector UInt8 32} (canonical : Bytes.ofLe bytes.toList % 2 ^ 255 < P) :
    (Fe.fromBytes (bytes.set 31 (bytes[31] &&& 0x7f))).val.val = Bytes.ofLe bytes.toList % 2 ^ 255 := by
  rw [Fe.val, Fe.fromBytes_value, y_spec, Nat.mod_mod, ZMod.val_natCast, Nat.mod_eq_of_lt canonical]

/-- The sign bit, as the parity it asks for. -/
private theorem sign_parity (bytes : Vector UInt8 32) :
    (if (Choice.fromBit (bytes[31] >>> 7).toNat).isSet then 1 else 0) =
      Bytes.ofLe bytes.toList / 2 ^ 255 := by
  have signIff := sign_spec bytes
  have fits := Bytes.ofLe_lt bytes.toList
  have width : 256 ^ 32 = 2 ^ 255 * 2 := by norm_num
  rw [Vector.length_toList, width] at fits
  have bit := Nat.div_lt_of_lt_mul fits
  split
  · next set => exact (signIff.mp set).symm
  · next unset =>
    have differs := mt signIff.mpr unset
    omega

/-- What decompression finds is the point of these bytes. -/
theorem decompress_sound {bytes : Vector UInt8 32} (found : decompress bytes = some p) :
    ∃ A, p.Denotes A ∧ encode A = bytes := by
  simp only [decompress] at found
  split at found
  · cases found
  · next canonical =>
    rw [not_not, canonical_spec] at canonical
    obtain ⟨A, denotes, y, parity⟩ := recoverX_sound found
    refine ⟨A, denotes, encode_eq_iff.mpr ?_⟩
    rw [encodedNumber, y, fromBytes_y canonical, parity, sign_parity, Nat.mod_add_div]

/-- Every encoded point is found again. -/
theorem decompress_complete {bytes : Vector UInt8 32} (encoded : encode A = bytes) :
    ∃ p, decompress bytes = some p := by
  have number := encode_eq_iff.mp encoded
  have y := ZMod.val_lt A.y
  have order := P_lt_two_pow
  have low : Bytes.ofLe bytes.toList % 2 ^ 255 = A.y.val := by
    rw [← number, encodedNumber]
    omega
  have high : Bytes.ofLe bytes.toList / 2 ^ 255 = A.x.val % 2 := by
    rw [← number, encodedNumber]
    omega
  have canonical : Bytes.ofLe bytes.toList % 2 ^ 255 < P := low ▸ y
  simp only [decompress]
  rw [if_neg (not_not.mpr ((canonical_spec bytes).mpr canonical))]
  apply recoverX_complete
  · apply ZMod.val_injective P
    rw [fromBytes_y canonical, low]
  · rw [sign_parity, high]

theorem decompress_eq_none {bytes : Vector UInt8 32} :
    decompress bytes = none ↔ ∀ A, encode A ≠ bytes := by
  constructor
  · intro refused A encoded
    obtain ⟨p, found⟩ := decompress_complete encoded
    rw [refused] at found
    cases found
  · intro unnamed
    cases found : decompress bytes with
    | none => rfl
    | some p =>
        obtain ⟨A, -, encoded⟩ := decompress_sound found
        exact absurd encoded (unnamed A)

end EdwardsPoint

end Blindplane.Crypto
