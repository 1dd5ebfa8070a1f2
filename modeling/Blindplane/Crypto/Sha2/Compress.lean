import Blindplane.Lib.Blocks

/-! # The compression functions of SHA-256 and SHA-512

One round and one schedule serve both: they differ in the width of a word, the rotations
and the constants. The schedule is filled from the front, each word from earlier ones.
-/

namespace Blindplane.Crypto.Sha2

open Lib

/-- The eight words of a state. -/
structure State (w : Nat) where
  a : BitVec w
  b : BitVec w
  c : BitVec w
  d : BitVec w
  e : BitVec w
  f : BitVec w
  g : BitVec w
  h : BitVec w
  deriving DecidableEq, Repr

/-- Rotations, and the constants of the rounds. -/
structure Variant (w : Nat) where
  k : List (BitVec w)
  bigSigma0 : Nat × Nat × Nat
  bigSigma1 : Nat × Nat × Nat
  smallSigma0 : Nat × Nat × Nat
  smallSigma1 : Nat × Nat × Nat

section Functions

variable {w : Nat}

def State.add (s t : State w) : State w :=
  { a := s.a + t.a, b := s.b + t.b, c := s.c + t.c, d := s.d + t.d, e := s.e + t.e, f := s.f + t.f, g := s.g + t.g,
    h := s.h + t.h }

theorem State.add_comm (s t : State w) : s.add t = t.add s := by
  simp only [State.add, BitVec.add_comm]

def State.words (s : State w) : List (BitVec w) := [s.a, s.b, s.c, s.d, s.e, s.f, s.g, s.h]

/-- Three rotations XORed. -/
def bigSigma (r : Nat × Nat × Nat) (x : BitVec w) : BitVec w :=
  x.rotateRight r.1 ^^^ x.rotateRight r.2.1 ^^^ x.rotateRight r.2.2

/-- Two rotations and a shift. -/
def smallSigma (r : Nat × Nat × Nat) (x : BitVec w) : BitVec w :=
  x.rotateRight r.1 ^^^ x.rotateRight r.2.1 ^^^ x >>> r.2.2

def ch (e f g : BitVec w) : BitVec w := (e &&& f) ^^^ (~~~e &&& g)

def maj (a b c : BitVec w) : BitVec w := (a &&& b) ^^^ (a &&& c) ^^^ (b &&& c)

/-- One round. -/
def round (variant : Variant w) (s : State w) (k word : BitVec w) : State w :=
  let t1 := s.h + bigSigma variant.bigSigma1 s.e + ch s.e s.f s.g + k + word
  let t2 := bigSigma variant.bigSigma0 s.a + maj s.a s.b s.c
  { a := t1 + t2, b := s.a, c := s.b, d := s.c, e := s.d + t1, f := s.e, g := s.f, h := s.g }

/-- The next word of the schedule. -/
def extend (variant : Variant w) (words : List (BitVec w)) (i : Nat) : List (BitVec w) :=
  let s0 := smallSigma variant.smallSigma0 (words.getD (i - 15) 0)
  let s1 := smallSigma variant.smallSigma1 (words.getD (i - 2) 0)
  words ++ [words.getD (i - 16) 0 + s0 + words.getD (i - 7) 0 + s1]

/-- The big-endian words of a block. -/
def blockWords (w : Nat) (block : Bytes) : List (BitVec w) :=
  (List.range 16).map fun i => BitVec.ofNat w (Bytes.ofBe ((block.drop (i * (w / 8))).take (w / 8)))

/-- The words of all rounds. -/
def schedule (variant : Variant w) (block : Bytes) : List (BitVec w) :=
  (List.range' 16 (variant.k.length - 16)).foldl (extend variant) (blockWords w block)

/-- Compress one block into the state. -/
def compress (variant : Variant w) (state : State w) (block : Bytes) : State w :=
  let words := schedule variant block
  let last := (List.range variant.k.length).foldl
    (fun s i => round variant s (variant.k.getD i 0) (words.getD i 0)) state
  state.add last

end Functions

section Schedule

variable {w : Nat} (variant : Variant w)

theorem blockWords_length (block : Bytes) : (blockWords w block).length = 16 := by
  rw [blockWords, List.length_map, List.length_range]

theorem blockWords_getD (block : Bytes) {i : Nat} (inside : i < 16) :
    (blockWords w block).getD i 0 = BitVec.ofNat w (Bytes.ofBe ((block.drop (i * (w / 8))).take (w / 8))) := by
  rw [blockWords, getD_map_range _ inside]

/-- A schedule that is filled up to the `count`th word behind the block. -/
structure Filled (first words : List (BitVec w)) (count : Nat) : Prop where
  length : words.length = 16 + count
  block : ∀ i < 16, words.getD i 0 = first.getD i 0
  later : ∀ i, 16 ≤ i → i < 16 + count →
    words.getD i 0 = words.getD (i - 16) 0 + smallSigma variant.smallSigma0 (words.getD (i - 15) 0) +
      words.getD (i - 7) 0 + smallSigma variant.smallSigma1 (words.getD (i - 2) 0)

variable {variant}

theorem Filled.extend {first words : List (BitVec w)} {count : Nat} (filled : Filled variant first words count) :
    Filled variant first (Sha2.extend variant words (16 + count)) (count + 1) := by
  have length := filled.length
  have before (x : BitVec w) (i : Nat) (inside : i < 16 + count) : (words ++ [x]).getD i 0 = words.getD i 0 :=
    List.getD_append _ _ _ _ (length ▸ inside)
  refine ⟨?_, ?_, ?_⟩
  · rw [Sha2.extend, List.length_append, length, List.length_singleton, Nat.add_assoc]
  · intro i inside
    rw [Sha2.extend, before _ i (by omega)]
    exact filled.block i inside
  · intro i behind inside
    rw [Sha2.extend, before _ (i - 16) (by omega), before _ (i - 15) (by omega), before _ (i - 7) (by omega),
      before _ (i - 2) (by omega)]
    by_cases earlier : i < 16 + count
    · rw [before _ i earlier]
      exact filled.later i behind earlier
    · have last : i = 16 + count := by omega
      rw [last, List.getD_append_right _ _ _ _ (Nat.le_of_eq length), length, Nat.sub_self, List.getD_cons_zero]

theorem filled_foldl (block : Bytes) (count : Nat) :
    Filled variant (blockWords w block) ((List.range' 16 count).foldl (extend variant) (blockWords w block)) count := by
  induction count with
  | zero => exact ⟨blockWords_length block, fun _ _ => rfl, fun i behind inside => absurd inside (by omega)⟩
  | succ count ih =>
      rw [List.range'_concat, List.foldl_append, Nat.one_mul, List.foldl_cons, List.foldl_nil]
      exact ih.extend

/-- What the schedule of a block holds. -/
theorem schedule_filled (block : Bytes) :
    Filled variant (blockWords w block) (schedule variant block) (variant.k.length - 16) :=
  filled_foldl block _

end Schedule

section Sha256

def K256 : List (BitVec 32) := [
    0x428a2f98, 0x71374491, 0xb5c0fbcf, 0xe9b5dba5, 0x3956c25b, 0x59f111f1, 0x923f82a4, 0xab1c5ed5,
    0xd807aa98, 0x12835b01, 0x243185be, 0x550c7dc3, 0x72be5d74, 0x80deb1fe, 0x9bdc06a7, 0xc19bf174,
    0xe49b69c1, 0xefbe4786, 0x0fc19dc6, 0x240ca1cc, 0x2de92c6f, 0x4a7484aa, 0x5cb0a9dc, 0x76f988da,
    0x983e5152, 0xa831c66d, 0xb00327c8, 0xbf597fc7, 0xc6e00bf3, 0xd5a79147, 0x06ca6351, 0x14292967,
    0x27b70a85, 0x2e1b2138, 0x4d2c6dfc, 0x53380d13, 0x650a7354, 0x766a0abb, 0x81c2c92e, 0x92722c85,
    0xa2bfe8a1, 0xa81a664b, 0xc24b8b70, 0xc76c51a3, 0xd192e819, 0xd6990624, 0xf40e3585, 0x106aa070,
    0x19a4c116, 0x1e376c08, 0x2748774c, 0x34b0bcb5, 0x391c0cb3, 0x4ed8aa4a, 0x5b9cca4f, 0x682e6ff3,
    0x748f82ee, 0x78a5636f, 0x84c87814, 0x8cc70208, 0x90befffa, 0xa4506ceb, 0xbef9a3f7, 0xc67178f2]

def H256 : State 32 :=
  { a := 0x6a09e667, b := 0xbb67ae85, c := 0x3c6ef372, d := 0xa54ff53a,
    e := 0x510e527f, f := 0x9b05688c, g := 0x1f83d9ab, h := 0x5be0cd19 }

def SHA256 : Variant 32 :=
  { k := K256, bigSigma0 := (2, 13, 22), bigSigma1 := (6, 11, 25), smallSigma0 := (7, 18, 3), smallSigma1 := (17, 19, 10) }

def compress256Portable (state : State 32) (block : Bytes) : State 32 := compress SHA256 state block

end Sha256

section Sha512

def K512 : List (BitVec 64) := [
    0x428a2f98d728ae22, 0x7137449123ef65cd, 0xb5c0fbcfec4d3b2f, 0xe9b5dba58189dbbc,
    0x3956c25bf348b538, 0x59f111f1b605d019, 0x923f82a4af194f9b, 0xab1c5ed5da6d8118,
    0xd807aa98a3030242, 0x12835b0145706fbe, 0x243185be4ee4b28c, 0x550c7dc3d5ffb4e2,
    0x72be5d74f27b896f, 0x80deb1fe3b1696b1, 0x9bdc06a725c71235, 0xc19bf174cf692694,
    0xe49b69c19ef14ad2, 0xefbe4786384f25e3, 0x0fc19dc68b8cd5b5, 0x240ca1cc77ac9c65,
    0x2de92c6f592b0275, 0x4a7484aa6ea6e483, 0x5cb0a9dcbd41fbd4, 0x76f988da831153b5,
    0x983e5152ee66dfab, 0xa831c66d2db43210, 0xb00327c898fb213f, 0xbf597fc7beef0ee4,
    0xc6e00bf33da88fc2, 0xd5a79147930aa725, 0x06ca6351e003826f, 0x142929670a0e6e70,
    0x27b70a8546d22ffc, 0x2e1b21385c26c926, 0x4d2c6dfc5ac42aed, 0x53380d139d95b3df,
    0x650a73548baf63de, 0x766a0abb3c77b2a8, 0x81c2c92e47edaee6, 0x92722c851482353b,
    0xa2bfe8a14cf10364, 0xa81a664bbc423001, 0xc24b8b70d0f89791, 0xc76c51a30654be30,
    0xd192e819d6ef5218, 0xd69906245565a910, 0xf40e35855771202a, 0x106aa07032bbd1b8,
    0x19a4c116b8d2d0c8, 0x1e376c085141ab53, 0x2748774cdf8eeb99, 0x34b0bcb5e19b48a8,
    0x391c0cb3c5c95a63, 0x4ed8aa4ae3418acb, 0x5b9cca4f7763e373, 0x682e6ff3d6b2b8a3,
    0x748f82ee5defb2fc, 0x78a5636f43172f60, 0x84c87814a1f0ab72, 0x8cc702081a6439ec,
    0x90befffa23631e28, 0xa4506cebde82bde9, 0xbef9a3f7b2c67915, 0xc67178f2e372532b,
    0xca273eceea26619c, 0xd186b8c721c0c207, 0xeada7dd6cde0eb1e, 0xf57d4f7fee6ed178,
    0x06f067aa72176fba, 0x0a637dc5a2c898a6, 0x113f9804bef90dae, 0x1b710b35131c471b,
    0x28db77f523047d84, 0x32caab7b40c72493, 0x3c9ebe0a15c9bebc, 0x431d67c49c100d4c,
    0x4cc5d4becb3e42b6, 0x597f299cfc657e2a, 0x5fcb6fab3ad6faec, 0x6c44198c4a475817]

def H512 : State 64 :=
  { a := 0x6a09e667f3bcc908, b := 0xbb67ae8584caa73b, c := 0x3c6ef372fe94f82b,
    d := 0xa54ff53a5f1d36f1, e := 0x510e527fade682d1, f := 0x9b05688c2b3e6c1f,
    g := 0x1f83d9abfb41bd6b, h := 0x5be0cd19137e2179 }

def SHA512 : Variant 64 :=
  { k := K512, bigSigma0 := (28, 34, 39), bigSigma1 := (14, 18, 41), smallSigma0 := (1, 8, 7), smallSigma1 := (19, 61, 6) }

def compress512 (state : State 64) (block : Bytes) : State 64 := compress SHA512 state block

end Sha512

end Blindplane.Crypto.Sha2
