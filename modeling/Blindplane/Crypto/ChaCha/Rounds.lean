import Blindplane.Lib.Keystream
import Blindplane.Lib.LittleEndian
import Mathlib.Logic.Function.Iterate

/-! # The rounds of ChaCha20

Quarter rounds are the same text over words, over lanes of words and over vector
registers. They are written once, over the operations they use; a map that commutes with
the operations commutes with the rounds, so that the wide versions are compared with the
one over words. What RFC 8439 says is written down on its own, and the rounds over words
compute it.
-/

namespace Blindplane.Crypto

open Lib

/-- A 32-bit word. -/
abbrev Word := BitVec 32

/-- The operations a quarter round is made of. -/
structure RoundOps (α : Type) where
  add : α → α → α
  xor : α → α → α
  rotl16 : α → α
  rotl12 : α → α
  rotl8 : α → α
  rotl7 : α → α

namespace RoundOps

variable {α β : Type}

def quarterRound (ops : RoundOps α) (v : Vector α 16) (a b c d : Fin 16) : Vector α 16 :=
  let v := put v a (ops.add (v.get a) (v.get b))
  let v := put v d (ops.rotl16 (ops.xor (v.get d) (v.get a)))
  let v := put v c (ops.add (v.get c) (v.get d))
  let v := put v b (ops.rotl12 (ops.xor (v.get b) (v.get c)))
  let v := put v a (ops.add (v.get a) (v.get b))
  let v := put v d (ops.rotl8 (ops.xor (v.get d) (v.get a)))
  let v := put v c (ops.add (v.get c) (v.get d))
  put v b (ops.rotl7 (ops.xor (v.get b) (v.get c)))

/-- The column rounds and the diagonal rounds. -/
def SCHEDULE : List (Fin 16 × Fin 16 × Fin 16 × Fin 16) :=
  [(0, 4, 8, 12), (1, 5, 9, 13), (2, 6, 10, 14), (3, 7, 11, 15),
    (0, 5, 10, 15), (1, 6, 11, 12), (2, 7, 8, 13), (3, 4, 9, 14)]

def doubleRound (ops : RoundOps α) (v : Vector α 16) : Vector α 16 :=
  SCHEDULE.foldl (fun v (a, b, c, d) => ops.quarterRound v a b c d) v

/-- Ten double rounds. -/
def rounds (ops : RoundOps α) (v : Vector α 16) : Vector α 16 :=
  (List.range 10).foldl (fun v _ => ops.doubleRound v) v

/-- The rounds, and the feed-forward addition of what they started from. -/
def permute (ops : RoundOps α) (initial : Vector α 16) : Vector α 16 :=
  (ops.rounds initial).zipWith ops.add initial

/-- A map that commutes with the operations. -/
structure Hom (A : RoundOps α) (B : RoundOps β) (f : α → β) : Prop where
  add : ∀ x y, f (A.add x y) = B.add (f x) (f y)
  xor : ∀ x y, f (A.xor x y) = B.xor (f x) (f y)
  rotl16 : ∀ x, f (A.rotl16 x) = B.rotl16 (f x)
  rotl12 : ∀ x, f (A.rotl12 x) = B.rotl12 (f x)
  rotl8 : ∀ x, f (A.rotl8 x) = B.rotl8 (f x)
  rotl7 : ∀ x, f (A.rotl7 x) = B.rotl7 (f x)

namespace Hom

variable {A : RoundOps α} {B : RoundOps β} {f : α → β}

theorem quarterRound (hom : Hom A B f) (v : Vector α 16) (a b c d : Fin 16) :
    (A.quarterRound v a b c d).map f = B.quarterRound (v.map f) a b c d := by
  simp only [RoundOps.quarterRound, map_put, hom.add, hom.xor, hom.rotl16, hom.rotl12, hom.rotl8,
    hom.rotl7, get_map f]

theorem doubleRound (hom : Hom A B f) (v : Vector α 16) : (A.doubleRound v).map f = B.doubleRound (v.map f) := by
  rw [RoundOps.doubleRound, RoundOps.doubleRound]
  induction SCHEDULE generalizing v with
  | nil => rfl
  | cons quarter rest ih => rw [List.foldl_cons, List.foldl_cons, ih, hom.quarterRound]

theorem rounds (hom : Hom A B f) (v : Vector α 16) : (A.rounds v).map f = B.rounds (v.map f) := by
  rw [RoundOps.rounds, RoundOps.rounds]
  induction List.range 10 generalizing v with
  | nil => rfl
  | cons _ rest ih => rw [List.foldl_cons, List.foldl_cons, ih, hom.doubleRound]

theorem permute (hom : Hom A B f) (v : Vector α 16) : (A.permute v).map f = B.permute (v.map f) := by
  have rounded := hom.rounds v
  apply Vector.ext
  intro i inside
  simp only [RoundOps.permute, ← rounded, Vector.getElem_map, Vector.getElem_zipWith, hom.add]

end Hom

end RoundOps

/-- The place of the block counter in the state. -/
def COUNTER : Fin 16 := 12

/-- The little-endian word `i` of a byte string. -/
def wordAt (bytes : Bytes) (i : Nat) : Word := BitVec.ofNat 32 (Bytes.ofLe ((bytes.drop (4 * i)).take 4))

/-- Addition modulo `2^32`, exclusive or, and left rotations of words. -/
def Word.ops : RoundOps Word where
  add := (· + ·)
  xor := (· ^^^ ·)
  rotl16 := (·.rotateLeft 16)
  rotl12 := (·.rotateLeft 12)
  rotl8 := (·.rotateLeft 8)
  rotl7 := (·.rotateLeft 7)

namespace Rfc8439

/-- The quarter round of four words. -/
def quarterRound (a b c d : Word) : Word × Word × Word × Word :=
  let a := a + b
  let d := (d ^^^ a).rotateLeft 16
  let c := c + d
  let b := (b ^^^ c).rotateLeft 12
  let a := a + b
  let d := (d ^^^ a).rotateLeft 8
  let c := c + d
  let b := (b ^^^ c).rotateLeft 7
  (a, b, c, d)

/-- `QUARTERROUND(x, y, z, w)`, of the words of a state at these indices. -/
def QUARTERROUND (state : Fin 16 → Word) (x y z w : Fin 16) : Fin 16 → Word :=
  let (a, b, c, d) := quarterRound (state x) (state y) (state z) (state w)
  let state := Function.update state x a
  let state := Function.update state y b
  let state := Function.update state z c
  Function.update state w d

/-- `inner_block`: a round of the columns and a round of the diagonals. -/
def innerBlock (state : Fin 16 → Word) : Fin 16 → Word :=
  let state := QUARTERROUND state 0 4 8 12
  let state := QUARTERROUND state 1 5 9 13
  let state := QUARTERROUND state 2 6 10 14
  let state := QUARTERROUND state 3 7 11 15
  let state := QUARTERROUND state 0 5 10 15
  let state := QUARTERROUND state 1 6 11 12
  let state := QUARTERROUND state 2 7 8 13
  QUARTERROUND state 3 4 9 14

/-- A state as 64 bytes. -/
def serialize (state : Vector Word 16) : Bytes := state.toList.flatMap fun word => Bytes.le 4 word.toNat

/-- The constants, the key, the block counter and the nonce. -/
def initState (key : Vector UInt8 32) (counter : Word) (nonce : Vector UInt8 12) : Vector Word 16 :=
  Vector.ofFn fun i =>
    if i.val < 4 then [0x61707865, 0x3320646e, 0x79622d32, 0x6b206574].getD i.val 0
    else if i.val < 12 then wordAt key.toList (i.val - 4)
    else if i.val = 12 then counter
    else wordAt nonce.toList (i.val - 13)

/-- `chacha20_block` of a state: twenty rounds, and what they make added to the state. -/
def block (state : Vector Word 16) : Bytes :=
  let working := innerBlock^[10] state.get
  serialize (Vector.ofFn fun i => state.get i + working i)

/-- `chacha20_block` of a key, a counter and a nonce. -/
def chacha20Block (key : Vector UInt8 32) (counter : Word) (nonce : Vector UInt8 12) : Bytes :=
  block (initState key counter nonce)

end Rfc8439

section Agreement

open Rfc8439

variable (v : Vector Word 16)

/-- Word by word, the quarter round is the one of the document. -/
theorem get_quarterRound {a b c d : Fin 16} (distinct : [a, b, c, d].Nodup) :
    (Word.ops.quarterRound v a b c d).get = QUARTERROUND v.get a b c d :=
  get_mixed v distinct (· + ·) (fun w x => (w ^^^ x).rotateLeft 16) (· + ·) (fun y z => (y ^^^ z).rotateLeft 12) (· + ·)
    (fun w x => (w ^^^ x).rotateLeft 8) (· + ·) (fun y z => (y ^^^ z).rotateLeft 7)

theorem get_doubleRound : (Word.ops.doubleRound v).get = innerBlock v.get := by
  simp (disch := decide) only [RoundOps.doubleRound, RoundOps.SCHEDULE, List.foldl_cons, List.foldl_nil, get_quarterRound,
    innerBlock]

theorem get_rounds : (Word.ops.rounds v).get = innerBlock^[10] v.get := by
  have step : Function.Semiconj Vector.get Word.ops.doubleRound innerBlock := get_doubleRound
  rw [RoundOps.rounds, List.foldl_const, List.length_range]
  exact step.iterate_right 10 v

/-- The rounds over words, with the feed-forward addition, make the block of the document. -/
theorem Rfc8439.block_eq : block v = serialize (Word.ops.permute v) := by
  apply congrArg serialize
  apply vector_ext
  intro i
  rw [get_ofFn, ← get_rounds, BitVec.add_comm]
  exact (Vector.getElem_zipWith i.isLt).symm

end Agreement

/-- A state whose counter is `blocks` further on, modulo `2^32`. -/
def advance (state : Vector Word 16) (blocks : Nat) : Vector Word 16 :=
  put state COUNTER (state.get COUNTER + BitVec.ofNat 32 blocks)

/-- Block `i` of the stream that starts at a state. -/
def keystream (state : Vector Word 16) (i : Nat) : Bytes := Rfc8439.block (advance state i)

@[simp] theorem advance_zero (state : Vector Word 16) : advance state 0 = state := by
  rw [advance, BitVec.add_zero, put_get]

theorem advance_advance (state : Vector Word 16) (a b : Nat) :
    advance (advance state a) b = advance state (a + b) := by
  rw [advance, advance, advance, get_put_self, put_put, BitVec.add_assoc, ← BitVec.ofNat_add]

theorem keystream_advance (state : Vector Word 16) (a : Nat) :
    keystream (advance state a) = fun i => keystream state (a + i) := by
  funext i
  rw [keystream, advance_advance, keystream]

@[simp] theorem serialize_length (state : Vector Word 16) : (Rfc8439.serialize state).length = 64 := by
  rw [Rfc8439.serialize, List.length_flatMap]
  simp only [Bytes.le_length, List.map_const', List.sum_replicate, Vector.length_toList, smul_eq_mul]

@[simp] theorem keystream_length (state : Vector Word 16) (i : Nat) : (keystream state i).length = 64 :=
  serialize_length _

@[simp] theorem chacha20Block_length (key : Vector UInt8 32) (counter : Word) (nonce : Vector UInt8 12) :
    (Rfc8439.chacha20Block key counter nonce).length = 64 := by
  rw [Rfc8439.chacha20Block, Rfc8439.block, serialize_length]

/-- The stream of a key and a nonce is that of RFC 8439, whatever the counter starts at. -/
theorem keystream_initState (key : Vector UInt8 32) (counter : Word) (nonce : Vector UInt8 12) (i : Nat) :
    keystream (Rfc8439.initState key counter nonce) i =
      Rfc8439.chacha20Block key (counter + BitVec.ofNat 32 i) nonce := by
  rw [keystream, Rfc8439.chacha20Block]
  apply congrArg Rfc8439.block
  apply vector_ext
  intro j
  rw [advance, get_put]
  split
  · next here =>
    subst here
    rw [Rfc8439.initState, Rfc8439.initState, get_ofFn, get_ofFn]
    rfl
  · next elsewhere =>
    have apart : j.val ≠ 12 := fun twelve => elsewhere (Fin.ext twelve.symm)
    simp only [Rfc8439.initState, get_ofFn, if_neg apart]

end Blindplane.Crypto
