import Blindplane.Crypto.Choice
import Blindplane.Lib.Blocks
import Blindplane.Lib.LittleEndian
import Blindplane.Lib.Words
import Mathlib.Data.Int.ModEq
import Mathlib.Tactic.LinearCombination

/-! # Poly1305

The accumulator is two words and a small overflow, reduced only in part between blocks.
What carries the computation is a bound on the overflow: it keeps every product within its
width, and it makes one subtraction enough at the end.
-/

namespace Blindplane.Crypto

open Lib Lib.Arithmetic

namespace Rfc8439

/-- `2^130 - 5`. -/
def P1305 : Nat := 2 ^ 130 - 5

/-- The clamped first half of the key. -/
def r (key : Bytes) : Nat := Bytes.ofLe (key.take 16) &&& 0x0ffffffc0ffffffc0ffffffc0fffffff

/-- One block, with a byte appended to it. -/
def accumulate (r acc : Nat) (block : Bytes) : Nat := (acc + Bytes.ofLe (block ++ [1])) * r % P1305

/-- `poly1305_mac` of a message under a 32-byte key. -/
def poly1305 (key message : Bytes) : Bytes :=
  let s := Bytes.ofLe (key.drop 16)
  Bytes.le 16 (((chunks 16 message).foldl (accumulate (r key)) 0 + s) % 2 ^ 128)

/-- The zero bytes that make `data` a whole number of blocks. -/
def pad16 (data : Bytes) : Bytes := List.replicate ((16 - data.length % 16) % 16) 0

theorem pad16_append {front : Bytes} (whole : 16 ∣ front.length) (data : Bytes) : pad16 (front ++ data) = pad16 data := by
  rw [pad16, pad16, List.length_append, Nat.add_mod, Nat.mod_eq_zero_of_dvd whole, Nat.zero_add, Nat.mod_mod]

theorem dvd_append_pad16 (data : Bytes) : 16 ∣ (data ++ pad16 data).length := by
  rw [List.length_append, pad16, List.length_replicate]
  omega

end Rfc8439

/-- Poly1305 over a one-time 256-bit key. -/
structure Poly1305 where
  r0 : Nat
  r1 : Nat
  /-- The folded high limb used by the reduction. -/
  s1 : Nat
  h0 : Nat
  h1 : Nat
  h2 : Nat
  pad : Bytes
  buffer : Bytes
  buffered : Nat

namespace Poly1305

section Routines

variable {m : Type → Type} [Monad m] [Arithmetic m]

/-- Start an authenticator under a one-time key. -/
def new (key : Vector UInt8 32) : m Poly1305 := do
  let t0 := Bytes.readLe64 key.toList 0
  let t1 := Bytes.readLe64 key.toList 8
  let r0 := t0 &&& 0x0ffffffc0fffffff
  let r1 := t1 &&& 0x0ffffffc0ffffffc
  let s1 ← add 64 r1 (r1 >>> 2)
  return { r0, r1, s1, h0 := 0, h1 := 0, h2 := 0, pad := key.toList.drop 16
           buffer := List.replicate 16 0, buffered := 0 }

/-- One block of `h = (h + m) * r mod (2^130 - 5)`, partially reduced. -/
def absorb (mac : Poly1305) (block : Bytes) (padbit : Nat) : m Poly1305 := do
  let m0 := Bytes.readLe64 block 0
  let m1 := Bytes.readLe64 block 8
  -- `h += m`, with the padbit as bit 128
  let t ← add 128 mac.h0 m0
  let h0 := t % 2 ^ 64
  let t ← add 128 (← add 128 mac.h1 (t >>> 64)) m1
  let h1 := t % 2 ^ 64
  let h2 ← add 64 (← add 64 mac.h2 ((t >>> 64) % 2 ^ 64)) padbit
  -- `h *= r`, folding `2^128 * x` to `(5/4) * r1 * x` as it appears
  let d0 ← add 128 (← mul 128 h0 mac.r0) (← mul 128 h1 mac.s1)
  let d1 ← add 128 (← add 128 (← mul 128 h0 mac.r1) (← mul 128 h1 mac.r0)) (← mul 64 h2 mac.s1)
  let h2r ← mul 64 h2 mac.r0
  let h0 := d0 % 2 ^ 64
  let d1 ← add 128 d1 (d0 >>> 64)
  let h1 := d1 % 2 ^ 64
  let h2 ← add 64 h2r ((d1 >>> 64) % 2 ^ 64)
  -- the bits at and above `2^130` come back in: `h += 5 * (h >> 130)`
  let c ← add 64 (h2 >>> 2) (h2 &&& (2 ^ 64 - 1 - 3))
  let h2 := h2 &&& 3
  let t ← add 128 h0 c
  let h0 := t % 2 ^ 64
  let t ← add 128 h1 (t >>> 64)
  let h1 := t % 2 ^ 64
  let h2 ← add 64 h2 ((t >>> 64) % 2 ^ 64)
  return { mac with h0, h1, h2 }

/-- Absorb the whole blocks in front; what is left is shorter than a block. -/
def absorbBlocks (mac : Poly1305) (data : Bytes) : m (Poly1305 × Bytes) :=
  if 16 ≤ data.length then do
    let mac ← mac.absorb (data.take 16) 1
    absorbBlocks mac (data.drop 16)
  else return (mac, data)
termination_by data.length
decreasing_by
  rw [List.length_drop]
  omega

/-- Complete the buffered block, if there is one, as far as the data goes. -/
def fill (mac : Poly1305) (data : Bytes) : m (Poly1305 × Bytes) :=
  if mac.buffered > 0 then
    let take := min (16 - mac.buffered) data.length
    let mac := { mac with buffer := copyAt mac.buffer mac.buffered (data.take take), buffered := mac.buffered + take }
    let data := data.drop take
    if mac.buffered = 16 then do
      let mac ← mac.absorb mac.buffer 1
      return ({ mac with buffered := 0 }, data)
    else return (mac, data)
  else return (mac, data)

/-- Keep what is shorter than a block for later. -/
def hold (mac : Poly1305) (data : Bytes) : Poly1305 :=
  if data = [] then mac else { mac with buffer := copyAt mac.buffer 0 data, buffered := data.length }

/-- Absorb more message bytes. -/
def update (mac : Poly1305) (data : Bytes) : m Poly1305 := do
  let (mac, data) ← mac.fill data
  let (mac, data) ← mac.absorbBlocks data
  return mac.hold data

/-- Absorb zero bytes until the message length is a multiple of 16. -/
def padToBlock (mac : Poly1305) : m Poly1305 :=
  if mac.buffered > 0 then mac.update ((List.replicate 16 0).take (16 - mac.buffered))
  else return mac

/-- Absorb the last, short block. -/
def settle (mac : Poly1305) : m Poly1305 :=
  if mac.buffered > 0 then do
    let block := copyAt (List.replicate 16 0) 0 (mac.buffer.take mac.buffered)
    let block := block.set mac.buffered 1
    { mac with buffered := 0 }.absorb block 0
  else return mac

/-- The low words of `h mod (2^130 - 5)`: those of `h + 5` when its bit 130 is set. -/
def subtractOnce (mac : Poly1305) : m (Nat × Nat) := do
  let t ← add 128 mac.h0 5
  let g0 := t % 2 ^ 64
  let t ← add 128 mac.h1 (t >>> 64)
  let g1 := t % 2 ^ 64
  let g2 ← add 64 mac.h2 ((t >>> 64) % 2 ^ 64)
  let mask := (2 ^ 64 - g2 >>> 2) % 2 ^ 64
  let h0 := (mac.h0 &&& (2 ^ 64 - 1 - mask)) ||| (g0 &&& mask)
  let h1 := (mac.h1 &&& (2 ^ 64 - 1 - mask)) ||| (g1 &&& mask)
  return (h0, h1)

/-- Finish and return the 16-byte tag. -/
def finalize (mac : Poly1305) : m Bytes := do
  let mac ← mac.settle
  let (h0, h1) ← mac.subtractOnce
  -- the key's second half is added modulo `2^128`, so the last sum is meant to wrap
  let t0 := Bytes.readLe64 mac.pad 0
  let t1 := Bytes.readLe64 mac.pad 8
  let t ← add 128 h0 t0
  let h0 := t % 2 ^ 64
  let h1 := ((h1 + t1) % 2 ^ 64 + (t >>> 64) % 2 ^ 64) % 2 ^ 64
  return Bytes.le 8 h0 ++ Bytes.le 8 h1

/-- Absorb a message cut into `pieces`. -/
def feed (key : Vector UInt8 32) (pieces : List Bytes) : m Poly1305 := do
  pieces.foldlM update (← new key)

/-- Authenticate a message cut into `pieces`. -/
def authenticate (key : Vector UInt8 32) (pieces : List Bytes) : m Bytes := do
  (← feed key pieces).finalize

end Routines

/-- What the accumulator stands for. -/
def value (h0 h1 h2 : Nat) : Nat := h0 + 2 ^ 64 * h1 + 2 ^ 128 * h2

/-- The accumulator between blocks. -/
structure Reduced (h0 h1 h2 : Nat) : Prop where
  low : h0 < 2 ^ 64
  middle : h1 < 2 ^ 64
  high : h2 ≤ 4

/-- The multiplier `r`, as clamping leaves it: `s1` is exactly `5/4` of its high word. -/
structure Keyed (r0 r1 s1 r : Nat) : Prop where
  value : r0 + 2 ^ 64 * r1 = r
  low : r0 < 2 ^ 60
  high : r1 < 2 ^ 60
  fold : ∃ quarter, r1 = 4 * quarter ∧ s1 = 5 * quarter

/-- Clearing the low two bits. -/
private theorem and_not_three {n : Nat} (fits : n < 2 ^ 64) : n &&& (2 ^ 64 - 1 - 3) = 4 * (n / 4) := by
  have mask : 2 ^ 64 - 1 - 3 = (2 ^ 62 - 1) <<< 2 := by decide
  have shifted : 4 * (n / 4) = (n >>> 2) <<< 2 := by
    rw [Nat.shiftLeft_eq, Nat.shiftRight_eq_div_pow, Nat.mul_comm]
  rw [mask, shifted]
  apply Nat.eq_of_testBit_eq
  intro i
  simp only [Nat.testBit_and, Nat.testBit_shiftLeft, Nat.testBit_shiftRight, Nat.testBit_two_pow_sub_one]
  by_cases low : 2 ≤ i
  · have position : 2 + (i - 2) = i := by omega
    by_cases inside : i < 64
    · have kept : i - 2 < 62 := by omega
      simp [low, kept, position]
    · have above := Nat.testBit_lt_two_pow (fits.trans_le (Nat.pow_le_pow_right (by decide) (Nat.not_lt.mp inside)))
      simp [position, above]
  · simp [low]

/-- Folding twice: what is dropped is a multiple of `2^130 - 5`. -/
private theorem fold_mod {r0 r1 s1 h0 h1 h2 quarter : Nat} (high : r1 = 4 * quarter) (folded : s1 = 5 * quarter) :
    (h0 * r0 + h1 * s1 + 2 ^ 64 * (h0 * r1 + h1 * r0 + h2 * s1) + 2 ^ 128 * (h2 * r0)) % Rfc8439.P1305 =
      (h0 + 2 ^ 64 * h1 + 2 ^ 128 * h2) * (r0 + 2 ^ 64 * r1) % Rfc8439.P1305 := by
  have prime : Rfc8439.P1305 + 5 = 2 ^ 130 := by decide
  have whole : h0 * r0 + h1 * s1 + 2 ^ 64 * (h0 * r1 + h1 * r0 + h2 * s1) + 2 ^ 128 * (h2 * r0) +
      Rfc8439.P1305 * (h1 * quarter + 2 ^ 64 * (h2 * quarter)) =
        (h0 + 2 ^ 64 * h1 + 2 ^ 128 * h2) * (r0 + 2 ^ 64 * r1) := by
    rw [high, folded]
    linear_combination (h1 * quarter + 2 ^ 64 * (h2 * quarter)) * prime
  rw [← whole, Nat.add_mul_mod_self_left]

/-- One block: the bounds come back, and the accumulator stands for the next Horner step.
    No sum or product on the way exceeds its width. -/
theorem absorb_computes {mac : Poly1305} {r : Nat} (keyed : Keyed mac.r0 mac.r1 mac.s1 r)
    (reduced : Reduced mac.h0 mac.h1 mac.h2) {block : Bytes} {padbit : Nat} (bit : padbit ≤ 1) :
    ∃ h0 h1 h2, Reduced h0 h1 h2 ∧
      value h0 h1 h2 % Rfc8439.P1305 =
        (value mac.h0 mac.h1 mac.h2 + (Bytes.readLe64 block 0 + 2 ^ 64 * Bytes.readLe64 block 8 + 2 ^ 128 * padbit)) * r %
          Rfc8439.P1305 ∧
      ∀ (m : Type → Type) [Monad m] [LawfulMonad m] [Arithmetic m] [Exact m],
        mac.absorb block padbit = (pure { mac with h0, h1, h2 } : m Poly1305) := by
  obtain ⟨m0, e0⟩ : ∃ m0, m0 = Bytes.readLe64 block 0 := ⟨_, rfl⟩
  obtain ⟨m1, e1⟩ : ∃ m1, m1 = Bytes.readLe64 block 8 := ⟨_, rfl⟩
  have b0 : m0 < 2 ^ 64 := e0 ▸ Bytes.readLe64_lt block 0
  have b1 : m1 < 2 ^ 64 := e1 ▸ Bytes.readLe64_lt block 8
  obtain ⟨key, r0, r1, quarter, high, folded⟩ := keyed
  obtain ⟨h0, h1, h2⟩ := reduced
  -- the accumulator with the message block added
  obtain ⟨t, et⟩ : ∃ t, t = mac.h0 + m0 := ⟨_, rfl⟩
  obtain ⟨u, eu⟩ : ∃ u, u = mac.h1 + t / 2 ^ 64 + m1 := ⟨_, rfl⟩
  obtain ⟨x0, ex0⟩ : ∃ x0, x0 = t % 2 ^ 64 := ⟨_, rfl⟩
  obtain ⟨x1, ex1⟩ : ∃ x1, x1 = u % 2 ^ 64 := ⟨_, rfl⟩
  obtain ⟨x2, ex2⟩ : ∃ x2, x2 = mac.h2 + u / 2 ^ 64 % 2 ^ 64 + padbit := ⟨_, rfl⟩
  have sum : x0 + 2 ^ 64 * x1 + 2 ^ 128 * x2 = value mac.h0 mac.h1 mac.h2 + (m0 + 2 ^ 64 * m1 + 2 ^ 128 * padbit) := by
    rw [value]
    omega
  have bx0 : x0 < 2 ^ 64 := by omega
  have bx1 : x1 < 2 ^ 64 := by omega
  have bx2 : x2 ≤ 6 := by omega
  -- the products, each within its width
  have bs : mac.s1 < 2 ^ 61 := by omega
  have p00 : x0 * mac.r0 < 2 ^ 64 * 2 ^ 60 := Nat.mul_lt_mul'' bx0 r0
  have p1s : x1 * mac.s1 < 2 ^ 64 * 2 ^ 61 := Nat.mul_lt_mul'' bx1 bs
  have p01 : x0 * mac.r1 < 2 ^ 64 * 2 ^ 60 := Nat.mul_lt_mul'' bx0 r1
  have p10 : x1 * mac.r0 < 2 ^ 64 * 2 ^ 60 := Nat.mul_lt_mul'' bx1 r0
  have p2s : x2 * mac.s1 ≤ 6 * mac.s1 := Nat.mul_le_mul_right _ bx2
  have p20 : x2 * mac.r0 ≤ 6 * mac.r0 := Nat.mul_le_mul_right _ bx2
  have product := @fold_mod mac.r0 mac.r1 mac.s1 x0 x1 x2 quarter high folded
  rw [sum, key] at product
  obtain ⟨d0, ed0⟩ : ∃ d0, d0 = x0 * mac.r0 + x1 * mac.s1 := ⟨_, rfl⟩
  obtain ⟨d1, ed1⟩ : ∃ d1, d1 = x0 * mac.r1 + x1 * mac.r0 + x2 * mac.s1 := ⟨_, rfl⟩
  obtain ⟨e, ee⟩ : ∃ e, e = d1 + d0 / 2 ^ 64 := ⟨_, rfl⟩
  obtain ⟨y2, ey2⟩ : ∃ y2, y2 = x2 * mac.r0 + e / 2 ^ 64 % 2 ^ 64 := ⟨_, rfl⟩
  -- the bits at and above `2^130` come back five times
  obtain ⟨c, ec⟩ : ∃ c, c = y2 / 2 ^ 2 + 4 * (y2 / 4) := ⟨_, rfl⟩
  obtain ⟨v, ev⟩ : ∃ v, v = d0 % 2 ^ 64 + c := ⟨_, rfl⟩
  obtain ⟨w, ew⟩ : ∃ w, w = e % 2 ^ 64 + v / 2 ^ 64 := ⟨_, rfl⟩
  have bd0 : d0 < 2 ^ 126 := by omega
  have bd1 : d1 < 2 ^ 126 := by omega
  have be : e / 2 ^ 64 < 2 ^ 63 := by omega
  have whole : e / 2 ^ 64 % 2 ^ 64 = e / 2 ^ 64 := Nat.mod_eq_of_lt (by omega)
  rw [whole] at ey2
  have by2 : y2 < 2 ^ 64 := by omega
  have bw : w / 2 ^ 64 ≤ 1 := by omega
  have kept : w / 2 ^ 64 % 2 ^ 64 = w / 2 ^ 64 := Nat.mod_eq_of_lt (by omega)
  have result : v % 2 ^ 64 + 2 ^ 64 * (w % 2 ^ 64) + 2 ^ 128 * (y2 % 2 ^ 2 + w / 2 ^ 64 % 2 ^ 64) +
      Rfc8439.P1305 * (y2 / 4) = d0 + 2 ^ 64 * d1 + 2 ^ 128 * (x2 * mac.r0) := by
    rw [Rfc8439.P1305, kept]
    omega
  refine ⟨v % 2 ^ 64, w % 2 ^ 64, y2 % 2 ^ 2 + w / 2 ^ 64 % 2 ^ 64, ⟨?_, ?_, ?_⟩, ?_, fun m _ _ _ _ => ?_⟩
  · exact Nat.mod_lt _ (by decide)
  · exact Nat.mod_lt _ (by decide)
  · show y2 % 2 ^ 2 + w / 2 ^ 64 % 2 ^ 64 ≤ 4
    omega
  · rw [← e0, ← e1, ← product, ← ed0, ← ed1, ← result, Nat.add_mul_mod_self_left, value]
  · have low : 3 = 2 ^ 2 - 1 := by decide
    simp only [absorb, ← e0, ← e1, Nat.shiftRight_eq_div_pow]
    rw [add_eq (by omega), pure_bind, ← et, ← ex0, add_eq (by omega), pure_bind, add_eq (by omega), pure_bind,
      ← eu, ← ex1, add_eq (by omega), pure_bind, add_eq (by omega), pure_bind, ← ex2, mul_eq (by omega),
      pure_bind, mul_eq (by omega), pure_bind, add_eq (by omega), pure_bind, ← ed0, mul_eq (by omega),
      pure_bind, mul_eq (by omega), pure_bind, add_eq (by omega), pure_bind, mul_eq (by omega), pure_bind,
      add_eq (by omega), pure_bind, ← ed1, mul_eq (by omega), pure_bind, add_eq (by omega), pure_bind, ← ee, whole,
      add_eq (by omega), pure_bind, ← ey2, and_not_three by2, add_eq (by omega), pure_bind, ← ec, low, and_mask,
      add_eq (by omega), pure_bind, ← ev, add_eq (by omega), pure_bind, ← ew, add_eq (by omega), pure_bind]

/-- Masking two words side by side. -/
private theorem and_pair {a b c d : Nat} (ha : a < 2 ^ 64) (hc : c < 2 ^ 64) :
    (a + 2 ^ 64 * b) &&& (c + 2 ^ 64 * d) = (a &&& c) + 2 ^ 64 * (b &&& d) := by
  have low : ((a + 2 ^ 64 * b) &&& (c + 2 ^ 64 * d)) % 2 ^ 64 = a &&& c := by
    rw [Nat.and_mod_two_pow, Nat.add_mul_mod_self_left, Nat.add_mul_mod_self_left, Nat.mod_eq_of_lt ha,
      Nat.mod_eq_of_lt hc]
  have high : ((a + 2 ^ 64 * b) &&& (c + 2 ^ 64 * d)) / 2 ^ 64 = b &&& d := by
    rw [Nat.and_div_two_pow, Nat.add_mul_div_left _ _ (by decide), Nat.add_mul_div_left _ _ (by decide),
      Nat.div_eq_of_lt ha, Nat.div_eq_of_lt hc, Nat.zero_add, Nat.zero_add]
  rw [← low, ← high, Nat.mod_add_div]

/-- Clamping leaves both words below `2^60`, and the high one a multiple of four. -/
theorem clamp_keyed (key : Vector UInt8 32) :
    Keyed (Bytes.readLe64 key.toList 0 &&& 0x0ffffffc0fffffff) (Bytes.readLe64 key.toList 8 &&& 0x0ffffffc0ffffffc)
      ((Bytes.readLe64 key.toList 8 &&& 0x0ffffffc0ffffffc) +
        (Bytes.readLe64 key.toList 8 &&& 0x0ffffffc0ffffffc) / 2 ^ 2)
      (Rfc8439.r key.toList) := by
  obtain ⟨t0, e0⟩ : ∃ t0, t0 = Bytes.readLe64 key.toList 0 := ⟨_, rfl⟩
  obtain ⟨t1, e1⟩ : ∃ t1, t1 = Bytes.readLe64 key.toList 8 := ⟨_, rfl⟩
  have half : (key.toList.take 16).length = 16 := by
    rw [List.length_take, Vector.length_toList]
    rfl
  have pair := Bytes.readLe64_pair half
  have first : Bytes.readLe64 (key.toList.take 16) 0 = t0 := by
    rw [e0, Bytes.readLe64, Bytes.readLe64, List.drop_zero, List.drop_zero, List.take_take]
    rfl
  have second : Bytes.readLe64 (key.toList.take 16) 8 = t1 := by
    rw [e1, Bytes.readLe64, Bytes.readLe64, List.drop_take, List.take_take]
    rfl
  have mask : 0x0ffffffc0ffffffc0ffffffc0fffffff = 0x0ffffffc0fffffff + 2 ^ 64 * 0x0ffffffc0ffffffc := by decide
  have four : (t1 &&& 0x0ffffffc0ffffffc) % 2 ^ 2 = 0 := by
    rw [Nat.and_mod_two_pow]
    exact Nat.and_zero _
  rw [← e0, ← e1]
  refine ⟨?_, Nat.and_lt_two_pow _ (by decide), Nat.and_lt_two_pow _ (by decide),
    (t1 &&& 0x0ffffffc0ffffffc) / 2 ^ 2, by omega, by omega⟩
  rw [Rfc8439.r, ← pair, first, second, mask, and_pair (e0 ▸ Bytes.readLe64_lt _ _) (by decide)]

/-- An accumulator that has absorbed the whole blocks `front`. -/
structure Accumulated (mac : Poly1305) (key front : Bytes) : Prop where
  keyed : Keyed mac.r0 mac.r1 mac.s1 (Rfc8439.r key)
  reduced : Reduced mac.h0 mac.h1 mac.h2
  pad : mac.pad = key.drop 16
  whole : 16 ∣ front.length
  horner : value mac.h0 mac.h1 mac.h2 % Rfc8439.P1305 =
    (chunks 16 front).foldl (Rfc8439.accumulate (Rfc8439.r key)) 0

theorem Accumulated.buffering {mac : Poly1305} {key front : Bytes} (done : mac.Accumulated key front)
    (buffer : Bytes) (buffered : Nat) : { mac with buffer, buffered }.Accumulated key front :=
  ⟨done.keyed, done.reduced, done.pad, done.whole, done.horner⟩

/-- Adding a block to the accumulator is a Horner step. -/
theorem Accumulated.step {mac : Poly1305} {key front block : Bytes} (done : mac.Accumulated key front)
    (nonempty : block ≠ []) (fits : block.length ≤ 16) :
    (value mac.h0 mac.h1 mac.h2 + Bytes.ofLe (block ++ [1])) * Rfc8439.r key % Rfc8439.P1305 =
      (chunks 16 (front ++ block)).foldl (Rfc8439.accumulate (Rfc8439.r key)) 0 := by
  rw [chunks_append (by decide) done.whole, chunks_of_le nonempty fits, List.foldl_append, ← done.horner,
    List.foldl_cons, List.foldl_nil, Rfc8439.accumulate]
  exact ((Nat.ModEq.add_right _ (Nat.mod_modEq _ _)).mul_right _).symm

/-- A whole block is absorbed with its padbit. -/
theorem Accumulated.absorb {mac : Poly1305} {key front block : Bytes} (done : mac.Accumulated key front)
    (length : block.length = 16) :
    ∃ h0 h1 h2, { mac with h0, h1, h2 }.Accumulated key (front ++ block) ∧
      ∀ (m : Type → Type) [Monad m] [LawfulMonad m] [Arithmetic m] [Exact m],
        mac.absorb block 1 = (pure { mac with h0, h1, h2 } : m Poly1305) := by
  obtain ⟨h0, h1, h2, reduced, next, runs⟩ := @absorb_computes mac _ done.keyed done.reduced block 1 (Nat.le_refl 1)
  refine ⟨h0, h1, h2, ⟨done.keyed, reduced, done.pad, ?_, ?_⟩, runs⟩
  · rw [List.length_append, length]
    exact Nat.dvd_add done.whole (Nat.dvd_refl 16)
  · have nonempty : block ≠ [] := by
      intro empty
      rw [empty] at length
      cases length
    have number : Bytes.readLe64 block 0 + 2 ^ 64 * Bytes.readLe64 block 8 + 2 ^ 128 * 1 =
        Bytes.ofLe (block ++ [1]) := by
      have width : 256 ^ 16 = 2 ^ 128 := by norm_num
      have one : Bytes.ofLe [1] = 1 := rfl
      rw [Bytes.readLe64_pair length, Bytes.ofLe_append, length, width, one]
    rw [← done.step nonempty (Nat.le_of_eq length), ← number]
    exact next

/-- An authenticator that has taken `seen`: whole blocks are absorbed, and the rest is in
    front of the buffer. -/
structure Holds (mac : Poly1305) (key seen : Bytes) : Prop where
  room : mac.buffer.length = 16
  short : mac.buffered < 16
  blocks : ∃ front, seen = front ++ mac.buffer.take mac.buffered ∧ mac.Accumulated key front

/-- An authenticator whose buffer is empty. -/
theorem Accumulated.holds {mac : Poly1305} {key front : Bytes} (done : mac.Accumulated key front)
    (room : mac.buffer.length = 16) : { mac with buffered := 0 }.Holds key front :=
  ⟨room, Nat.zero_lt_succ 15, front, by rw [List.take_zero, List.append_nil], done.buffering mac.buffer 0⟩

/-- After filling, either nothing is buffered or no data is left. -/
theorem Holds.fill {mac : Poly1305} {key seen : Bytes} (holds : mac.Holds key seen) (data : Bytes) :
    ∃ (mac' : Poly1305) (data' seen' : Bytes), mac'.Holds key seen' ∧ seen' ++ data' = seen ++ data ∧
      (mac'.buffered = 0 ∨ data' = []) ∧
      ∀ (m : Type → Type) [Monad m] [LawfulMonad m] [Arithmetic m] [Exact m],
        mac.fill data = (pure (mac', data') : m (Poly1305 × Bytes)) := by
  by_cases empty : mac.buffered > 0
  · obtain ⟨room, short, front, parts, done⟩ := holds
    obtain ⟨take, etake⟩ : ∃ take, take = min (16 - mac.buffered) data.length := ⟨_, rfl⟩
    have taken : (data.take take).length = take := by
      rw [List.length_take]
      omega
    have inside : mac.buffered + (data.take take).length ≤ mac.buffer.length := by
      rw [taken, room]
      omega
    obtain ⟨buffer, ebuffer⟩ : ∃ buffer, buffer = copyAt mac.buffer mac.buffered (data.take take) := ⟨_, rfl⟩
    have room' : buffer.length = 16 := by
      rw [ebuffer, copyAt_length inside, room]
    have written : buffer.take (mac.buffered + take) = mac.buffer.take mac.buffered ++ data.take take := by
      rw [ebuffer, ← take_copyAt (by omega), taken]
    have filled : front ++ buffer.take (mac.buffered + take) ++ data.drop take = seen ++ data := by
      rw [written, parts, ← List.append_assoc, List.append_assoc, List.take_append_drop]
    by_cases complete : mac.buffered + take = 16
    · have full : buffer.take (mac.buffered + take) = buffer := by
        rw [complete, ← room', List.take_length]
      rw [full] at filled
      obtain ⟨h0, h1, h2, next, runs⟩ := (done.buffering buffer (mac.buffered + take)).absorb room'
      refine ⟨_, data.drop take, front ++ buffer, next.holds room', filled, .inl rfl, fun m _ _ _ _ => ?_⟩
      simp only [Poly1305.fill, if_pos empty, ← etake, ← ebuffer, if_pos complete, runs m, pure_bind]
    · have all : data.drop take = [] := by
        apply List.drop_of_length_le
        omega
      refine ⟨{ mac with buffer, buffered := mac.buffered + take }, data.drop take,
        front ++ buffer.take (mac.buffered + take), ⟨room', ?_, front, rfl, done.buffering _ _⟩, filled, .inr all,
        fun m _ _ _ _ => ?_⟩
      · show mac.buffered + take < 16
        omega
      · simp only [Poly1305.fill, if_pos empty, ← etake, ← ebuffer, if_neg complete]
  · refine ⟨mac, data, seen, holds, rfl, .inl (Nat.eq_zero_of_not_pos empty), fun m _ _ _ _ => ?_⟩
    simp only [Poly1305.fill, if_neg empty]

/-- The whole blocks in front are absorbed one after the other. -/
theorem Holds.absorbBlocks {mac : Poly1305} {key seen data : Bytes} (holds : mac.Holds key seen)
    (either : mac.buffered = 0 ∨ data = []) :
    ∃ (mac' : Poly1305) (data' seen' : Bytes), mac'.Holds key seen' ∧ seen' ++ data' = seen ++ data ∧
      (mac'.buffered = 0 ∨ data' = []) ∧ data'.length < 16 ∧
      ∀ (m : Type → Type) [Monad m] [LawfulMonad m] [Arithmetic m] [Exact m],
        mac.absorbBlocks data = (pure (mac', data') : m (Poly1305 × Bytes)) := by
  induction size : data.length using Nat.strong_induction_on generalizing mac seen data with
  | _ size' ih =>
    subst size
    by_cases block : 16 ≤ data.length
    · have empty : mac.buffered = 0 := by
        cases either with
        | inl empty => exact empty
        | inr none =>
            rw [none] at block
            cases block
      obtain ⟨room, short, front, parts, done⟩ := holds
      rw [empty, List.take_zero, List.append_nil] at parts
      have length : (data.take 16).length = 16 := by
        rw [List.length_take]
        omega
      have smaller : (data.drop 16).length < data.length := by
        rw [List.length_drop]
        omega
      obtain ⟨h0, h1, h2, next, runs⟩ := done.absorb length
      have holds' : { mac with h0, h1, h2 }.Holds key (seen ++ data.take 16) := by
        refine ⟨room, short, seen ++ data.take 16, ?_, parts ▸ next⟩
        show _ = _ ++ mac.buffer.take mac.buffered
        rw [empty, List.take_zero, List.append_nil]
      obtain ⟨mac', data', seen', holdsLast, same, left, few, later⟩ :=
        ih _ smaller holds' (.inl empty) rfl
      refine ⟨mac', data', seen', holdsLast, ?_, left, few, fun m _ _ _ _ => ?_⟩
      · rw [same, List.append_assoc, List.take_append_drop]
      · rw [Poly1305.absorbBlocks, if_pos block, runs m, pure_bind, later m]
    · refine ⟨mac, data, seen, holds, rfl, either, Nat.not_le.mp block, fun m _ _ _ _ => ?_⟩
      rw [Poly1305.absorbBlocks, if_neg block]

theorem Holds.hold {mac : Poly1305} {key seen data : Bytes} (holds : mac.Holds key seen)
    (either : mac.buffered = 0 ∨ data = []) (few : data.length < 16) :
    (mac.hold data).Holds key (seen ++ data) := by
  rw [Poly1305.hold]
  split
  · next none => rwa [none, List.append_nil]
  · next some =>
    obtain ⟨room, short, front, parts, done⟩ := holds
    have empty := either.resolve_right some
    rw [empty, List.take_zero, List.append_nil] at parts
    have inside : 0 + data.length ≤ mac.buffer.length := by
      rw [room]
      omega
    have written := @take_copyAt _ mac.buffer data 0 (Nat.zero_le _)
    rw [List.take_zero, List.nil_append, Nat.zero_add] at written
    exact ⟨(copyAt_length inside).trans room, few, front, by rw [parts, written], done.buffering _ _⟩

/-- However the message is cut, what has been taken is all that counts. -/
theorem Holds.update {mac : Poly1305} {key seen : Bytes} (holds : mac.Holds key seen) (data : Bytes) :
    ∃ mac' : Poly1305, mac'.Holds key (seen ++ data) ∧
      ∀ (m : Type → Type) [Monad m] [LawfulMonad m] [Arithmetic m] [Exact m],
        mac.update data = (pure mac' : m Poly1305) := by
  obtain ⟨mac₁, data₁, seen₁, holds₁, same₁, either₁, fills⟩ := holds.fill data
  obtain ⟨mac₂, data₂, seen₂, holds₂, same₂, either₂, few, absorbs⟩ := holds₁.absorbBlocks either₁
  refine ⟨mac₂.hold data₂, ?_, fun m _ _ _ _ => ?_⟩
  · rw [← same₁, ← same₂]
    exact holds₂.hold either₂ few
  · simp only [Poly1305.update, fills m, pure_bind, absorbs m]

/-- Padding: zero bytes up to the next block, none when the last is whole. -/
theorem Holds.padToBlock {mac : Poly1305} {key seen : Bytes} (holds : mac.Holds key seen) :
    ∃ mac' : Poly1305, mac'.Holds key (seen ++ Rfc8439.pad16 seen) ∧
      ∀ (m : Type → Type) [Monad m] [LawfulMonad m] [Arithmetic m] [Exact m],
        mac.padToBlock = (pure mac' : m Poly1305) := by
  obtain ⟨room, short, front, parts, done⟩ := id holds
  obtain ⟨blocks, length⟩ := done.whole
  have pending : seen.length % 16 = mac.buffered := by
    rw [parts, List.length_append, List.length_take, length]
    omega
  by_cases some : mac.buffered > 0
  · have zeros : (List.replicate 16 0).take (16 - mac.buffered) = Rfc8439.pad16 seen := by
      have below : (16 - mac.buffered) % 16 = 16 - mac.buffered := Nat.mod_eq_of_lt (by omega)
      rw [Rfc8439.pad16, pending, below, List.take_replicate, Nat.min_eq_left (by omega)]
    obtain ⟨mac', holds', runs⟩ := holds.update (Rfc8439.pad16 seen)
    refine ⟨mac', holds', fun m _ _ _ _ => ?_⟩
    rw [Poly1305.padToBlock, if_pos some, zeros, runs m]
  · have none : Rfc8439.pad16 seen = [] := by
      rw [Rfc8439.pad16, pending, Nat.eq_zero_of_not_pos some]
      rfl
    refine ⟨mac, by rwa [none, List.append_nil], fun m _ _ _ _ => ?_⟩
    rw [Poly1305.padToBlock, if_neg some]

/-- The words under a mask of zeros or of ones. -/
private theorem masked_select {h g : Nat} (hh : h < 2 ^ 64) (hg : g < 2 ^ 64) (chosen : Bool) :
    (h &&& (2 ^ 64 - 1 - (2 ^ 64 - chosen.toNat) % 2 ^ 64)) ||| (g &&& ((2 ^ 64 - chosen.toNat) % 2 ^ 64)) =
      if chosen then g else h := by
  cases chosen with
  | true =>
      have ones : (2 ^ 64 - true.toNat) % 2 ^ 64 = 2 ^ 64 - 1 := rfl
      rw [ones, Nat.sub_self, Nat.and_zero, Nat.zero_or, and_mask, Nat.mod_eq_of_lt hg]
      rfl
  | false =>
      have zeros : (2 ^ 64 - false.toNat) % 2 ^ 64 = 0 := rfl
      rw [zeros, Nat.sub_zero, Nat.and_zero, Nat.or_zero, and_mask, Nat.mod_eq_of_lt hh]
      rfl

/-- With the overflow at most four the accumulator is below `2 * (2^130 - 5)`, so one
    subtraction reduces it fully. -/
theorem subtractOnce_computes {mac : Poly1305} (reduced : Reduced mac.h0 mac.h1 mac.h2) :
    ∃ h0 h1, h0 < 2 ^ 64 ∧ h1 < 2 ^ 64 ∧
      h0 + 2 ^ 64 * h1 = value mac.h0 mac.h1 mac.h2 % Rfc8439.P1305 % 2 ^ 128 ∧
      ∀ (m : Type → Type) [Monad m] [LawfulMonad m] [Arithmetic m] [Exact m],
        mac.subtractOnce = (pure (h0, h1) : m (Nat × Nat)) := by
  obtain ⟨b0, b1, b2⟩ := reduced
  obtain ⟨t, et⟩ : ∃ t, t = mac.h0 + 5 := ⟨_, rfl⟩
  obtain ⟨u, eu⟩ : ∃ u, u = mac.h1 + t / 2 ^ 64 := ⟨_, rfl⟩
  obtain ⟨g2, eg⟩ : ∃ g2, g2 = mac.h2 + u / 2 ^ 64 % 2 ^ 64 := ⟨_, rfl⟩
  have carry : u / 2 ^ 64 ≤ 1 := by omega
  have kept : u / 2 ^ 64 % 2 ^ 64 = u / 2 ^ 64 := Nat.mod_eq_of_lt (by omega)
  rw [kept] at eg
  have sum : t % 2 ^ 64 + 2 ^ 64 * (u % 2 ^ 64) + 2 ^ 128 * g2 = value mac.h0 mac.h1 mac.h2 + 5 := by
    rw [value]
    omega
  obtain ⟨chosen, echosen⟩ : ∃ chosen : Bool, g2 / 2 ^ 2 = chosen.toNat := by
    rcases Nat.lt_or_ge g2 4 with below | above
    · exact ⟨false, Nat.div_eq_of_lt below⟩
    · exact ⟨true, show g2 / 2 ^ 2 = 1 by omega⟩
  refine ⟨if chosen then t % 2 ^ 64 else mac.h0, if chosen then u % 2 ^ 64 else mac.h1, ?_, ?_, ?_,
    fun m _ _ _ _ => ?_⟩
  · cases chosen with
    | true => exact Nat.mod_lt _ (by decide)
    | false => exact b0
  · cases chosen with
    | true => exact Nat.mod_lt _ (by decide)
    | false => exact b1
  · have order : Rfc8439.P1305 = 2 ^ 130 - 5 := rfl
    obtain ⟨h, eh⟩ : ∃ h, h = value mac.h0 mac.h1 mac.h2 := ⟨_, rfl⟩
    have words : h = mac.h0 + 2 ^ 64 * mac.h1 + 2 ^ 128 * mac.h2 := eh
    rw [← eh] at sum ⊢
    cases chosen with
    | true =>
        have one : g2 / 2 ^ 2 = 1 := echosen
        have once : h % Rfc8439.P1305 = h - Rfc8439.P1305 := by
          rw [Nat.mod_eq_sub_mod (by omega), Nat.mod_eq_of_lt (by omega)]
        rw [once, if_pos rfl, if_pos rfl, order]
        omega
    | false =>
        have zero : g2 / 2 ^ 2 = 0 := echosen
        have below : h % Rfc8439.P1305 = h := Nat.mod_eq_of_lt (by omega)
        rw [below, if_neg Bool.false_ne_true, if_neg Bool.false_ne_true]
        omega
  · simp only [subtractOnce, Nat.shiftRight_eq_div_pow]
    rw [add_eq (by omega), pure_bind, ← et, add_eq (by omega), pure_bind, ← eu, kept, add_eq (by omega), pure_bind,
      ← eg, echosen, masked_select b0 (Nat.mod_lt _ (by decide)), masked_select b1 (Nat.mod_lt _ (by decide))]

/-- The last, short block has its byte appended and zeros behind it. -/
private theorem ofLe_settled {pending : Bytes} (short : pending.length < 16) :
    (copyAt (List.replicate 16 0) 0 pending).set pending.length 1 =
      pending ++ [1] ++ List.replicate (15 - pending.length) 0 := by
  have room : 16 - pending.length = 15 - pending.length + 1 := by omega
  rw [copyAt, List.take_zero, List.nil_append, Nat.zero_add, List.drop_replicate, room, List.replicate_succ,
    List.set_append_right _ _ (Nat.le_refl _), Nat.sub_self, List.set_cons_zero, List.append_assoc,
    List.singleton_append]

theorem Holds.settle {mac : Poly1305} {key seen : Bytes} (holds : mac.Holds key seen) :
    ∃ mac' : Poly1305, Reduced mac'.h0 mac'.h1 mac'.h2 ∧ mac'.pad = key.drop 16 ∧
      value mac'.h0 mac'.h1 mac'.h2 % Rfc8439.P1305 =
        (chunks 16 seen).foldl (Rfc8439.accumulate (Rfc8439.r key)) 0 ∧
      ∀ (m : Type → Type) [Monad m] [LawfulMonad m] [Arithmetic m] [Exact m],
        mac.settle = (pure mac' : m Poly1305) := by
  obtain ⟨room, short, front, parts, done⟩ := holds
  by_cases some : mac.buffered > 0
  · obtain ⟨pending, epending⟩ : ∃ pending, pending = mac.buffer.take mac.buffered := ⟨_, rfl⟩
    have length : pending.length = mac.buffered := by
      rw [epending, List.length_take]
      omega
    have nonempty : pending ≠ [] := by
      apply List.ne_nil_of_length_pos
      omega
    obtain ⟨block, eblock⟩ : ∃ block, block = (copyAt (List.replicate 16 0) 0 pending).set mac.buffered 1 := ⟨_, rfl⟩
    have padded : block = pending ++ [1] ++ List.replicate (15 - pending.length) 0 := by
      rw [eblock, ← length, ofLe_settled (by omega)]
    have whole : block.length = 16 := by
      rw [padded]
      simp only [List.length_append, List.length_singleton, List.length_replicate]
      omega
    obtain ⟨h0, h1, h2, reduced, next, runs⟩ :=
      @absorb_computes { mac with buffered := 0 } _ done.keyed done.reduced block 0 (Nat.zero_le 1)
    refine ⟨{ mac with buffered := 0, h0, h1, h2 }, reduced, done.pad, ?_, fun m _ _ _ _ => ?_⟩
    · rw [parts, ← epending, ← done.step nonempty (by omega), ← Bytes.ofLe_append_zeros _ (15 - pending.length),
        ← padded, ← Bytes.readLe64_pair whole]
      exact next
    · simp only [Poly1305.settle, if_pos some, ← epending, ← eblock, runs m]
  · have empty := Nat.eq_zero_of_not_pos some
    rw [empty, List.take_zero, List.append_nil] at parts
    exact ⟨mac, done.reduced, done.pad, parts ▸ done.horner, fun m _ _ _ _ => if_neg some⟩

/-- Two-word addition that wraps at the end. -/
private theorem add_words {a0 a1 b0 b1 : Nat} (ha : a0 < 2 ^ 64) (hb : b0 < 2 ^ 64) :
    (a0 + b0) % 2 ^ 64 + 2 ^ 64 * (((a1 + b1) % 2 ^ 64 + (a0 + b0) / 2 ^ 64 % 2 ^ 64) % 2 ^ 64) =
      (a0 + 2 ^ 64 * a1 + (b0 + 2 ^ 64 * b1)) % 2 ^ 128 := by
  have carry : (a0 + b0) / 2 ^ 64 % 2 ^ 64 = (a0 + b0) / 2 ^ 64 := Nat.mod_eq_of_lt (by omega)
  have width : 2 ^ 128 = 2 ^ 64 * 2 ^ 64 := by decide
  have sum : a0 + 2 ^ 64 * a1 + (b0 + 2 ^ 64 * b1) = a0 + b0 + 2 ^ 64 * (a1 + b1) := by ring
  rw [carry, Nat.mod_add_mod, sum, width, Nat.mod_mul, Nat.add_mul_mod_self_left,
    Nat.add_mul_div_left _ _ (Nat.two_pow_pos 64), Nat.add_comm (a1 + b1)]

theorem Holds.finalize {mac : Poly1305} {key seen : Bytes} (holds : mac.Holds key seen) (length : key.length = 32) :
    ∀ (m : Type → Type) [Monad m] [LawfulMonad m] [Arithmetic m] [Exact m],
      mac.finalize = (pure (Rfc8439.poly1305 key seen) : m Bytes) := by
  obtain ⟨mac', reduced, pad, horner, settles⟩ := holds.settle
  obtain ⟨h0, h1, b0, b1, number, subtracts⟩ := subtractOnce_computes reduced
  intro m _ _ _ _
  have half : mac'.pad.length = 16 := by
    rw [pad, List.length_drop, length]
  have s := Bytes.readLe64_pair half
  have c0 := Bytes.readLe64_lt mac'.pad 0
  have c1 := Bytes.readLe64_lt mac'.pad 8
  simp only [Poly1305.finalize, settles m, pure_bind, subtracts m, Nat.shiftRight_eq_div_pow]
  obtain ⟨V, eV⟩ : ∃ V, V = value mac'.h0 mac'.h1 mac'.h2 % Rfc8439.P1305 := ⟨_, rfl⟩
  rw [← eV] at horner number
  rw [add_eq (by omega), pure_bind, Rfc8439.poly1305, ← horner, ← pad]
  congr 1
  have widths : 256 ^ 16 = 2 ^ 128 := by norm_num
  have sum := @add_words h0 h1 _ (Bytes.readLe64 mac'.pad 8) b0 c0
  rw [number, s, Nat.mod_add_mod V] at sum
  rw [← Bytes.ofLe_inj (by simp only [List.length_append, Bytes.le_length]), Bytes.ofLe_append, Bytes.ofLe_le,
    Bytes.ofLe_le, Bytes.ofLe_le, Bytes.le_length, Bytes.word_base, widths, Nat.mod_mod, Nat.mod_mod, Nat.mod_mod,
    sum]

theorem new_holds (key : Vector UInt8 32) :
    ∃ mac : Poly1305, mac.Holds key.toList [] ∧
      ∀ (m : Type → Type) [Monad m] [LawfulMonad m] [Arithmetic m] [Exact m], new key = (pure mac : m Poly1305) := by
  have keyed := clamp_keyed key
  obtain ⟨r1, e1⟩ : ∃ r1, r1 = Bytes.readLe64 key.toList 8 &&& 0x0ffffffc0ffffffc := ⟨_, rfl⟩
  rw [← e1] at keyed
  have below := keyed.high
  refine ⟨{ r0 := Bytes.readLe64 key.toList 0 &&& 0x0ffffffc0fffffff, r1, s1 := r1 + r1 / 2 ^ 2
            h0 := 0, h1 := 0, h2 := 0, pad := key.toList.drop 16, buffer := List.replicate 16 0, buffered := 0 },
    ⟨List.length_replicate, Nat.zero_lt_succ 15, [], rfl, keyed, ⟨Nat.two_pow_pos 64, Nat.two_pow_pos 64, Nat.zero_le 4⟩,
      rfl, Nat.dvd_zero 16, ?_⟩, fun m _ _ _ _ => ?_⟩
  · rw [chunks_nil]
    rfl
  · simp only [new, ← e1, Nat.shiftRight_eq_div_pow]
    rw [add_eq (by omega), pure_bind]

/-- However the message is cut, and at every cut. -/
theorem feed_holds (key : Vector UInt8 32) (pieces : List Bytes) :
    ∃ mac : Poly1305, mac.Holds key.toList pieces.flatten ∧
      ∀ (m : Type → Type) [Monad m] [LawfulMonad m] [Arithmetic m] [Exact m],
        feed key pieces = (pure mac : m Poly1305) := by
  obtain ⟨start, starts, news⟩ := new_holds key
  have feeds : ∀ {mac : Poly1305} {seen : Bytes}, mac.Holds key.toList seen →
      ∃ mac' : Poly1305, mac'.Holds key.toList (seen ++ pieces.flatten) ∧
        ∀ (m : Type → Type) [Monad m] [LawfulMonad m] [Arithmetic m] [Exact m],
          pieces.foldlM update mac = (pure mac' : m Poly1305) := by
    induction pieces with
    | nil =>
        intro mac seen holds
        exact ⟨mac, by rwa [List.flatten_nil, List.append_nil], fun m _ _ _ _ => rfl⟩
    | cons piece rest ih =>
        intro mac seen holds
        obtain ⟨next, holdsNext, updates⟩ := holds.update piece
        obtain ⟨last, holdsLast, runs⟩ := ih holdsNext
        refine ⟨last, ?_, fun m _ _ _ _ => ?_⟩
        · rwa [List.flatten_cons, ← List.append_assoc]
        · rw [List.foldlM_cons, updates m, pure_bind, runs m]
  obtain ⟨last, holdsLast, runs⟩ := feeds starts
  refine ⟨last, holdsLast, fun m _ _ _ _ => ?_⟩
  rw [feed, news m, pure_bind, runs m]

/-- Poly1305 is the function of RFC 8439, however the message is cut. No sum or product
    exceeds its width where it is not meant to wrap, in an `absorb` of any 16-byte block
    least of all; the overflow is at most four at every cut; and one subtraction reduces
    what is left at the end. -/
theorem authenticate_eq_rfc8439 (key : Vector UInt8 32) (pieces : List Bytes) :
    (authenticate key pieces : Option Bytes) = some (Rfc8439.poly1305 key.toList pieces.flatten) ∧
      (authenticate key pieces : Id Bytes) = Rfc8439.poly1305 key.toList pieces.flatten ∧
      ∃ mac : Poly1305, (feed key pieces : Option Poly1305) = some mac ∧ (feed key pieces : Id Poly1305) = mac ∧
        mac.h2 ≤ 4 ∧
        (∀ (block : Bytes) (padbit : Nat), padbit ≤ 1 → ∃ next : Poly1305,
          (mac.absorb block padbit : Option Poly1305) = some next ∧
            (mac.absorb block padbit : Id Poly1305) = next ∧ next.h2 ≤ 4) ∧
        ∃ (last : Poly1305) (h0 h1 : Nat), (mac.settle : Option Poly1305) = some last ∧
          (last.subtractOnce : Option (Nat × Nat)) = some (h0, h1) ∧
          h0 + 2 ^ 64 * h1 = (last.h0 + 2 ^ 64 * last.h1 + 2 ^ 128 * last.h2) % Rfc8439.P1305 % 2 ^ 128 := by
  obtain ⟨mac, holds, feeds⟩ := feed_holds key pieces
  have result : ∀ (m : Type → Type) [Monad m] [LawfulMonad m] [Arithmetic m] [Exact m],
      authenticate key pieces = (pure (Rfc8439.poly1305 key.toList pieces.flatten) : m Bytes) := by
    intro m _ _ _ _
    rw [authenticate, feeds m, pure_bind, holds.finalize key.length_toList m]
  obtain ⟨last, reduced, -, -, settles⟩ := holds.settle
  obtain ⟨h0, h1, -, -, number, subtracts⟩ := subtractOnce_computes reduced
  obtain ⟨-, -, front, -, done⟩ := holds
  refine ⟨result Option, result Id, mac, feeds Option, feeds Id, done.reduced.high, ?_,
    last, h0, h1, settles Option, subtracts Option, number⟩
  intro block padbit bit
  obtain ⟨h0, h1, h2, bounds, -, runs⟩ := @absorb_computes mac _ done.keyed done.reduced block padbit bit
  exact ⟨_, runs Option, runs Id, bounds.high⟩

end Poly1305

end Blindplane.Crypto
