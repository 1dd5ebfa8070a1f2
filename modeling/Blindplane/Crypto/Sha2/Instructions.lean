import Blindplane.Crypto.Sha2.Compress
import Blindplane.Lib.Simd

/-! # The SHA-2 instructions of AArch64

Each is defined as the architecture manual has it, on lanes of vector registers. What the
manual writes with an exclusive or or an inclusive or is the choice and the majority of the
rounds.
-/

namespace Blindplane.Crypto.Sha2

open Lib Simd

section Functions

variable {w : Nat}

/-- `SHAchoose`. -/
def shaChoose (x y z : BitVec w) : BitVec w := ((y ^^^ z) &&& x) ^^^ z

/-- `SHAmajority`. -/
def shaMajority (x y z : BitVec w) : BitVec w := (x &&& y) ||| ((x ||| y) &&& z)

theorem shaChoose_eq (x y z : BitVec w) : shaChoose x y z = ch x y z := by
  apply BitVec.eq_of_getLsbD_eq
  intro i inside
  simp only [shaChoose, ch, BitVec.getLsbD_xor, BitVec.getLsbD_and, BitVec.getLsbD_not, inside, decide_true, Bool.true_and]
  cases x.getLsbD i with
  | true => simp
  | false => simp

theorem shaMajority_eq (x y z : BitVec w) : shaMajority x y z = maj x y z := by
  apply BitVec.eq_of_getLsbD_eq
  intro i _
  simp only [shaMajority, maj, BitVec.getLsbD_xor, BitVec.getLsbD_and, BitVec.getLsbD_or]
  cases x.getLsbD i with
  | true => cases y.getLsbD i <;> cases z.getLsbD i <;> rfl
  | false => cases y.getLsbD i <;> cases z.getLsbD i <;> rfl

theorem maj_comm (x y z : BitVec w) : maj z y x = maj x y z := by
  rw [maj, maj, BitVec.and_comm z y, BitVec.and_comm z x, BitVec.and_comm y x, BitVec.xor_comm, BitVec.xor_comm (y &&& z),
    ← BitVec.xor_assoc]

end Functions

section Sha256

/-- A register rotated left by one word, with another word coming in. -/
def rotateIn (r : Register) (word : BitVec 32) : Register :=
  ofLanes 32 fun i => if i = 0 then word else lane 32 r (i - 1)

theorem lane_rotateIn_zero (r : Register) (word : BitVec 32) : lane 32 (rotateIn r word) 0 = word := by
  rw [rotateIn, lane_ofLanes _ (by decide), if_pos rfl]

theorem lane_rotateIn_succ (r : Register) (word : BitVec 32) {i : Nat} (inside : i < 3) :
    lane 32 (rotateIn r word) (i + 1) = lane 32 r i := by
  rw [rotateIn, lane_ofLanes _ (by omega), if_neg (Nat.succ_ne_zero i), Nat.add_sub_cancel]

/-- One pass of the loop of `SHA256hash`: both registers, rotated left by one word together. -/
def sha256Pass (wk : Register) (r : Register × Register) (e : Nat) : Register × Register :=
  let (x, y) := r
  let chs := shaChoose (lane 32 y 0) (lane 32 y 1) (lane 32 y 2)
  let maj := shaMajority (lane 32 x 0) (lane 32 x 1) (lane 32 x 2)
  let t := lane 32 y 3 + bigSigma (6, 11, 25) (lane 32 y 0) + chs + lane 32 wk e
  let x3 := t + lane 32 x 3
  let y3 := t + bigSigma (2, 13, 22) (lane 32 x 0) + maj
  (rotateIn x y3, rotateIn y x3)

/-- `SHA256hash`: four rounds. -/
def sha256hash (x y wk : Register) : Register × Register := (List.range 4).foldl (sha256Pass wk) (x, y)

def vsha256hq_u32 (abcd efgh wk : Register) : Register := (sha256hash abcd efgh wk).1

def vsha256h2q_u32 (efgh abcd wk : Register) : Register := (sha256hash abcd efgh wk).2

def vsha256su0q_u32 (w0 w4 : Register) : Register :=
  ofLanes 32 fun e => smallSigma (7, 18, 3) (if e < 3 then lane 32 w0 (e + 1) else lane 32 w4 0) + lane 32 w0 e

def vsha256su1q_u32 (tw0 w8 w12 : Register) : Register :=
  let t0 := fun e => if e < 3 then lane 32 w8 (e + 1) else lane 32 w12 0
  let low := fun e => smallSigma (17, 19, 10) (lane 32 w12 (e + 2)) + lane 32 tw0 e + t0 e
  ofLanes 32 fun e => if e < 2 then low e else smallSigma (17, 19, 10) (low (e - 2)) + lane 32 tw0 e + t0 e

end Sha256

section Sha512

def vsha512hq_u64 (w x y : Register) : Register :=
  let chs := (lane 64 y 1 &&& lane 64 x 0) ^^^ (~~~(lane 64 y 1) &&& lane 64 x 1)
  let high := chs + bigSigma (14, 18, 41) (lane 64 y 1) + lane 64 w 1
  let tmp := high + lane 64 y 0
  let chs := (tmp &&& lane 64 y 1) ^^^ (~~~tmp &&& lane 64 x 0)
  let low := chs + bigSigma (14, 18, 41) tmp + lane 64 w 0
  ofLanes 64 fun i => if i = 0 then low else high

def vsha512h2q_u64 (w x y : Register) : Register :=
  let maj := (lane 64 x 0 &&& lane 64 y 1) ^^^ (lane 64 x 0 &&& lane 64 y 0) ^^^ (lane 64 y 1 &&& lane 64 y 0)
  let high := maj + bigSigma (28, 34, 39) (lane 64 y 0) + lane 64 w 1
  let maj := (high &&& lane 64 y 0) ^^^ (high &&& lane 64 y 1) ^^^ (lane 64 y 1 &&& lane 64 y 0)
  let low := maj + bigSigma (28, 34, 39) high + lane 64 w 0
  ofLanes 64 fun i => if i = 0 then low else high

def vsha512su0q_u64 (w x : Register) : Register :=
  let low := lane 64 w 0 + smallSigma (1, 8, 7) (lane 64 w 1)
  let high := lane 64 w 1 + smallSigma (1, 8, 7) (lane 64 x 0)
  ofLanes 64 fun i => if i = 0 then low else high

def vsha512su1q_u64 (w x y : Register) : Register :=
  let high := lane 64 w 1 + smallSigma (19, 61, 6) (lane 64 x 1) + lane 64 y 1
  let low := lane 64 w 0 + smallSigma (19, 61, 6) (lane 64 x 0) + lane 64 y 0
  ofLanes 64 fun i => if i = 0 then low else high

end Sha512

end Blindplane.Crypto.Sha2
