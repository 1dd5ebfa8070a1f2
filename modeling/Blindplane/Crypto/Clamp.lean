import Blindplane.Lib.LittleEndian
import Mathlib.Tactic.LinearCombination

/-! # Clamped scalars

Both curves mask the secret scalar the same way. What the masks leave is a multiple of
the cofactor of a fixed bit length, and says nothing about the bits they cover.
-/

namespace Blindplane.Crypto

open Lib

theorem first_byte_lt : 0 < 32 := by decide

theorem last_byte_lt : 31 < 32 := by decide

/-- Clamping: clear the low three bits, clear bit 255, set 254. -/
def clamp (bytes : Vector UInt8 32) : Vector UInt8 32 :=
  let bytes := bytes.set 0 (bytes.get ⟨0, first_byte_lt⟩ &&& 0b11111000) first_byte_lt
  let bytes := bytes.set 31 (bytes.get ⟨31, last_byte_lt⟩ &&& 127) last_byte_lt
  bytes.set 31 (bytes.get ⟨31, last_byte_lt⟩ ||| 64) last_byte_lt

private theorem masked_bits : ∀ n < 256,
    (UInt8.ofNat n &&& 0b11111000).toNat = n / 8 * 8 ∧
      ((UInt8.ofNat n &&& 127) ||| 64).toNat = 64 + n % 64 := by
  decide +kernel

theorem clamp_toList (bytes : Vector UInt8 32) :
    (clamp bytes).toList =
      (bytes.toList.set 0 (bytes.get ⟨0, first_byte_lt⟩ &&& 0b11111000)).set 31
        (bytes.get ⟨31, last_byte_lt⟩ &&& 127 ||| 64) := by
  have get : ∀ (v : Vector UInt8 32) (i : Fin 32), v.get i = v[i.val] := fun v i => rfl
  simp [clamp, get, Vector.toList_set]

/-- The masks on the number the bytes hold. -/
theorem ofLe_clamp (bytes : Vector UInt8 32) :
    Bytes.ofLe (clamp bytes).toList = 2 ^ 254 + Bytes.ofLe bytes.toList % 2 ^ 254 / 8 * 8 := by
  have get : ∀ i : Fin 32, bytes.toList[i.val]? = some (bytes.get i) := by
    intro i
    rw [Vector.getElem?_toList]
    exact Vector.getElem?_eq_getElem i.isLt
  have first : bytes.toList[0]? = some (bytes.get ⟨0, first_byte_lt⟩) := get ⟨0, first_byte_lt⟩
  have last : bytes.toList[31]? = some (bytes.get ⟨31, last_byte_lt⟩) := get ⟨31, last_byte_lt⟩
  have kept : (bytes.toList.set 0 (bytes.get ⟨0, first_byte_lt⟩ &&& 0b11111000))[31]? =
      some (bytes.get ⟨31, last_byte_lt⟩) :=
    (List.getElem?_set_ne (Nat.zero_ne_add_one 30)).trans last
  have low := Bytes.ofLe_set first (bytes.get ⟨0, first_byte_lt⟩ &&& 0b11111000)
  have high := Bytes.ofLe_set kept (bytes.get ⟨31, last_byte_lt⟩ &&& 127 ||| 64)
  have number := Bytes.ofLe_lt bytes.toList
  have width : 256 ^ 31 = 2 ^ 248 := by norm_num
  have masked := fun i => masked_bits (bytes.get i).toNat (bytes.get i).toNat_lt
  simp only [UInt8.ofNat_toNat] at masked
  rw [(masked _).1, Bytes.toNat_eq_of_getElem? first, Nat.pow_zero, Nat.one_mul, Nat.one_mul, Nat.div_one] at low
  rw [(masked _).2, Bytes.toNat_eq_of_getElem? last, width] at high
  rw [Vector.length_toList, Nat.pow_succ, width] at number
  rw [clamp_toList]
  omega

/-- A clamped scalar is a multiple of the cofactor, of a known size. -/
theorem clamp_value (bytes : Vector UInt8 32) :
    ∃ j, Bytes.ofLe (clamp bytes).toList = 8 * j ∧ 2 ^ 251 ≤ j ∧ j < 2 ^ 252 := by
  rw [ofLe_clamp]
  exact ⟨2 ^ 251 + Bytes.ofLe bytes.toList % 2 ^ 254 / 8, by omega, by omega, by omega⟩

end Blindplane.Crypto
