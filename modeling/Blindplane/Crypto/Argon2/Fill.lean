import Blindplane.Crypto.Argon2.BlockMix

/-! # Filling the memory of Argon2id

RFC 9106 speaks of the blocks a computation makes, each from earlier ones. The program
overwrites one memory pass after pass: it holds the last blocks, each at its number modulo
the size of the memory.
-/

namespace Blindplane.Crypto.Argon2

open Lib Arithmetic

section Routines

def QWORDS : Nat := 128

/-- A block of zeros, but for its first words. -/
def blockFrom (words : List Qword) : Block := Vector.ofFn fun i => words.getD i.val 0

/-- Generate the next block of data-independent addresses. -/
def nextAddressBlock (inputBlock : Block) : Block :=
  let zero := blockFrom []
  let first := compressBlocks zero inputBlock
  compressBlocks zero first

/-- How many blocks may be referred to, and where they start. -/
def referenceArea (pass slice index segmentLength blockCount : Nat) : Option (Nat × Nat) :=
  if pass = 0 then do
    let area ← sub 64 (← add 64 (← mul 64 slice segmentLength) index) 1
    return (area, 0)
  else do
    let area ← sub 64 (← add 64 (← sub 64 blockCount segmentLength) index) 1
    let start ← if slice = 3 then some 0 else do mul 64 (← add 64 slice 1) segmentLength
    return (area, start)

/-- Map a pseudo-random word onto an index into the already-filled memory. -/
def referenceIndex (pseudoRandom : Qword) (pass slice index segmentLength blockCount : Nat) : Option Nat := do
  let (referenceAreaSize, startPosition) ← referenceArea pass slice index segmentLength blockCount
  let j1 := (pseudoRandom &&& 0xffffffff).toNat
  let relative := (← mul 64 j1 j1) / 2 ^ 32
  let relative ← sub 64 (← sub 64 referenceAreaSize 1) ((← mul 64 referenceAreaSize relative) / 2 ^ 32)
  let position ← add 64 startPosition relative
  if blockCount = 0 then none else some (position % blockCount)

/-- What the loop of a segment changes. -/
structure Filling where
  memory : List Block
  addressBlock : Block
  inputBlock : Block
  addressCounter : Nat

/-- The word of the input block that counts address blocks. -/
def COUNTED : Fin 128 := 6

def Filling.nextAddresses (s : Filling) : Option Filling := do
  let addressCounter ← add 64 s.addressCounter 1
  let inputBlock := put s.inputBlock COUNTED (BitVec.ofNat 64 addressCounter)
  return { s with addressCounter, inputBlock, addressBlock := nextAddressBlock inputBlock }

/-- The pseudo-random word of a block. -/
def pseudoRandom (dataIndependent : Bool) (s : Filling) (index previous : Nat) : Option (Filling × Qword) :=
  if dataIndependent then do
    let s ← if index % QWORDS = 0 then s.nextAddresses else some s
    return (s, s.addressBlock.toList.getD (index % QWORDS) 0)
  else do
    let block ← s.memory[previous]?
    return (s, block.toList.getD 0 0)

/-- The block before wraps around to the last one. -/
def previousIndex (current blockCount : Nat) : Option Nat :=
  if current = 0 then sub 64 blockCount 1 else sub 64 current 1

/-- One block of a segment. -/
def fillBlock (pass slice segmentLength blockCount : Nat) (dataIndependent : Bool) (s : Filling) (index : Nat) :
    Option Filling := do
  let current ← add 64 (← mul 64 slice segmentLength) index
  let previous ← previousIndex current blockCount
  let (s, word) ← pseudoRandom dataIndependent s index previous
  let reference ← referenceIndex word pass slice index segmentLength blockCount
  let mixed := compressBlocks (← s.memory[previous]?) (← s.memory[reference]?)
  if pass = 0 then
    let memory ← store s.memory current mixed
    return { s with memory }
  else
    let slot ← s.memory[current]?
    let memory ← store s.memory current (slot.zipWith (· ^^^ ·) mixed)
    return { s with memory }

/-- The first index of a segment that is filled. -/
def startIndex (pass slice : Nat) : Nat := if pass = 0 ∧ slice = 0 then 2 else 0

/-- The first segment has its first address block from before the loop: none of the indices
    that bring one is in it. -/
def firstAddresses (dataIndependent : Bool) (start : Nat) (s : Filling) : Option Filling :=
  if dataIndependent ∧ start = 2 then s.nextAddresses else some s

def fillSegment (passes blocks segmentLength blockCount pass : Nat) (memory : List Block) (slice : Nat) :
    Option (List Block) := do
  -- the first half of the first pass is data independent
  let dataIndependent := decide (pass = 0 ∧ slice < 2)
  let inputBlock :=
    if dataIndependent then blockFrom ([pass, 0, slice, blocks, passes, 2].map (BitVec.ofNat 64)) else blockFrom []
  let s : Filling := { memory, addressBlock := blockFrom [], inputBlock, addressCounter := 0 }
  let start := startIndex pass slice
  let s ← firstAddresses dataIndependent start s
  let s ← (List.range' start (segmentLength - start)).foldlM
    (fillBlock pass slice segmentLength blockCount dataIndependent) s
  return s.memory

/-- All passes. -/
def fill (passes blocks segmentLength blockCount : Nat) (memory : List Block) : Option (List Block) :=
  (List.range passes).foldlM
    (fun memory pass => (List.range 4).foldlM (fillSegment passes blocks segmentLength blockCount pass) memory) memory

end Routines

namespace Rfc9106

/-- A computation on one lane: the length of its segments, of which a pass has four, and how
    many passes it makes. -/
structure Shape where
  segment : Nat
  passes : Nat

namespace Shape

variable (shape : Shape)

/-- Blocks of a lane. -/
def columns : Nat := 4 * shape.segment

def pass (n : Nat) : Nat := n / shape.columns

def slice (n : Nat) : Nat := n % shape.columns / shape.segment

def index (n : Nat) : Nat := n % shape.segment

/-- `LE64(r) || LE64(l) || LE64(sl) || LE64(m') || LE64(t) || LE64(y)`, and a counter. -/
def addressInput (pass slice counter : Nat) : Block :=
  blockFrom ([pass, 0, slice, shape.columns, shape.passes, 2, counter].map (BitVec.ofNat 64))

/-- An address block. -/
def addresses (pass slice counter : Nat) : Block :=
  G (blockFrom []) (G (blockFrom []) (shape.addressInput pass slice counter))

/-- `J_1` and `J_2` of the block behind these. -/
def J (blocks : List Block) : Qword :=
  let n := blocks.length
  if shape.pass n = 0 ∧ shape.slice n < 2 then
    (shape.addresses (shape.pass n) (shape.slice n) (shape.index n / 128 + 1)).toList.getD (shape.index n % 128) 0
  else (blocks.getD (n - 1) (blockFrom [])).toList.getD 0 0

/-- The first block that block `n` may refer to: of the last three finished segments, as far
    as there are. -/
def oldest (n : Nat) : Nat := n - shape.index n - 3 * shape.segment

/-- The block that block `n` refers to. It may be any from the oldest on, but not the last. -/
def reference (n : Nat) (j : Qword) : Nat :=
  let size := n - 1 - shape.oldest n
  let x := (trunc j).toNat ^ 2 / 2 ^ 32
  let y := size * x / 2 ^ 32
  shape.oldest n + (size - 1 - y)

/-- The block behind these. -/
def next (blocks : List Block) : Block :=
  let n := blocks.length
  let mixed := G (blocks.getD (n - 1) (blockFrom [])) (blocks.getD (shape.reference n (shape.J blocks)) (blockFrom []))
  if n < shape.columns then mixed else mixed.zipWith (· ^^^ ·) (blocks.getD (n - shape.columns) (blockFrom []))

/-- The first `n` blocks. -/
def blocks (first second : Block) (n : Nat) : List Block :=
  (List.range (n - 2)).foldl (fun blocks _ => blocks ++ [shape.next blocks]) [first, second]

end Shape

end Rfc9106

namespace Rfc9106.Shape

section Positions

variable {shape : Shape} {pass slice index : Nat}

/-- The number of a block, from where it stands. -/
def number (shape : Shape) (pass slice index : Nat) : Nat :=
  shape.columns * pass + (shape.segment * slice + index)

/-- Where the program stands in its loops. -/
structure Inside (shape : Shape) (pass slice index : Nat) : Prop where
  second : 2 ≤ shape.number pass slice index
  slice : slice < 4
  index : index < shape.segment
  wide : 2 ≤ shape.segment
  narrow : 4 * shape.segment < 2 ^ 32

theorem Inside.lt_columns (inside : Inside shape pass slice index) : shape.segment * slice + index < shape.columns := by
  have before : shape.segment * (slice + 1) ≤ shape.segment * 4 := Nat.mul_le_mul_left _ inside.slice
  rw [Nat.mul_succ] at before
  have := inside.index
  rw [columns]
  omega

theorem Inside.mod_columns (inside : Inside shape pass slice index) :
    shape.number pass slice index % shape.columns = shape.segment * slice + index := by
  rw [number, Nat.mul_add_mod, Nat.mod_eq_of_lt inside.lt_columns]

theorem Inside.pass_eq (inside : Inside shape pass slice index) : shape.pass (shape.number pass slice index) = pass := by
  rw [Shape.pass, number, Nat.mul_add_div (Nat.zero_lt_of_lt inside.lt_columns), Nat.div_eq_of_lt inside.lt_columns,
    Nat.add_zero]

theorem Inside.slice_eq (inside : Inside shape pass slice index) :
    shape.slice (shape.number pass slice index) = slice := by
  rw [Shape.slice, inside.mod_columns, Nat.mul_add_div (Nat.zero_lt_of_lt inside.index), Nat.div_eq_of_lt inside.index,
    Nat.add_zero]

theorem Inside.index_eq (inside : Inside shape pass slice index) :
    shape.index (shape.number pass slice index) = index := by
  have whole : shape.number pass slice index = shape.segment * (4 * pass + slice) + index := by
    rw [number, columns]
    ring
  rw [Shape.index, whole, Nat.mul_add_mod, Nat.mod_eq_of_lt inside.index]

/-- The oldest block in reach stands where the next slice begins, and in the first pass at
    the start. -/
theorem Inside.oldest_eq (inside : Inside shape pass slice index) :
    shape.oldest (shape.number pass slice index) =
      if pass = 0 then 0
      else shape.columns * (if slice = 3 then pass else pass - 1) + (if slice = 3 then 0 else (slice + 1) * shape.segment) := by
  have few := inside.slice
  rw [oldest, inside.index_eq, number]
  cases pass with
  | zero =>
      have before : shape.segment * slice ≤ shape.segment * 3 := Nat.mul_le_mul_left _ (by omega)
      simp only [↓reduceIte]
      omega
  | succ pass =>
      have round : shape.columns * (pass + 1) = shape.columns * pass + 4 * shape.segment := by
        rw [Nat.mul_succ, columns]
      simp only [Nat.succ_ne_zero, ↓reduceIte, Nat.add_sub_cancel]
      by_cases last : slice = 3
      · simp only [last, ↓reduceIte]
        omega
      · have order : (slice + 1) * shape.segment = shape.segment * slice + shape.segment := by ring
        simp only [last, ↓reduceIte, order]
        omega

/-- How many blocks there are to refer to. -/
def area (shape : Shape) (n : Nat) : Nat := n - 1 - shape.oldest n

theorem Inside.area_eq (inside : Inside shape pass slice index) :
    shape.area (shape.number pass slice index) =
      if pass = 0 then slice * shape.segment + index - 1 else shape.columns - shape.segment + index - 1 := by
  have few := inside.slice
  have order : slice * shape.segment = shape.segment * slice := Nat.mul_comm _ _
  rw [area, inside.oldest_eq, number, columns]
  cases pass with
  | zero =>
      simp only [↓reduceIte, order]
      omega
  | succ pass =>
      have round : 4 * shape.segment * (pass + 1) = 4 * shape.segment * pass + 4 * shape.segment := Nat.mul_succ _ _
      simp only [Nat.succ_ne_zero, ↓reduceIte, Nat.add_sub_cancel]
      by_cases last : slice = 3
      · simp only [last, ↓reduceIte, round]
        omega
      · have next : (slice + 1) * shape.segment = shape.segment * slice + shape.segment := by ring
        simp only [last, ↓reduceIte, round, next]
        omega

theorem Inside.area_pos (inside : Inside shape pass slice index) : 0 < shape.area (shape.number pass slice index) := by
  have second := inside.second
  have wide := inside.wide
  have order : slice * shape.segment = shape.segment * slice := Nat.mul_comm _ _
  rw [inside.area_eq]
  cases pass with
  | zero =>
      rw [number, Nat.mul_zero, Nat.zero_add] at second
      simp only [↓reduceIte, order]
      omega
  | succ pass =>
      simp only [Nat.succ_ne_zero, ↓reduceIte, columns]
      omega

theorem Inside.area_lt (inside : Inside shape pass slice index) :
    shape.area (shape.number pass slice index) < shape.columns := by
  have below := inside.lt_columns
  have wide := inside.wide
  have order : slice * shape.segment = shape.segment * slice := Nat.mul_comm _ _
  have few := inside.index
  rw [inside.area_eq]
  split
  · omega
  · rw [columns] at below ⊢
    omega

/-- The square of a 32-bit word, scaled to an area, stays below it. -/
theorem scaled_lt {j size : Nat} (word : j < 2 ^ 32) (positive : 0 < size) : size * (j ^ 2 / 2 ^ 32) / 2 ^ 32 < size := by
  have square : j ^ 2 / 2 ^ 32 < 2 ^ 32 := by
    apply Nat.div_lt_of_lt_mul
    rw [← Nat.pow_two]
    exact Nat.pow_lt_pow_left word (by decide)
  apply Nat.div_lt_of_lt_mul
  rw [Nat.mul_comm (2 ^ 32)]
  exact Nat.mul_lt_mul_of_pos_left square positive

theorem trunc_lt (j : Qword) : (trunc j).toNat < 2 ^ 32 := by
  rw [trunc, BitVec.toNat_setWidth, BitVec.toNat_setWidth]
  omega

/-- A block refers to one that is made, still held, and not the last. -/
theorem Inside.reference_bounds (inside : Inside shape pass slice index) (j : Qword) :
    shape.reference (shape.number pass slice index) j + 2 ≤ shape.number pass slice index ∧
      shape.number pass slice index < shape.reference (shape.number pass slice index) j + shape.columns := by
  have positive := inside.area_pos
  have below := scaled_lt (trunc_lt j) positive
  have few := inside.index
  have reached : shape.oldest (shape.number pass slice index) + shape.area (shape.number pass slice index) + 1 =
      shape.number pass slice index := by
    rw [area] at positive ⊢
    omega
  have held : shape.number pass slice index < shape.oldest (shape.number pass slice index) + shape.columns := by
    rw [oldest, inside.index_eq, columns]
    omega
  have place : shape.reference (shape.number pass slice index) j =
      shape.oldest (shape.number pass slice index) + (shape.area (shape.number pass slice index) - 1 -
        shape.area (shape.number pass slice index) * ((trunc j).toNat ^ 2 / 2 ^ 32) / 2 ^ 32) := rfl
  rw [place]
  omega

end Positions

end Rfc9106.Shape

section References

open Rfc9106

variable {shape : Shape} {pass slice index : Nat}

/-- The start of the area in memory. -/
def startOf (shape : Shape) (pass slice : Nat) : Nat :=
  if pass = 0 then 0 else if slice = 3 then 0 else (slice + 1) * shape.segment

theorem startOf_le (inside : shape.Inside pass slice index) : startOf shape pass slice ≤ shape.columns := by
  have few := inside.slice
  have scaled : (slice + 1) * shape.segment ≤ 4 * shape.segment := Nat.mul_le_mul_right _ few
  rw [startOf, Shape.columns]
  split
  · exact Nat.zero_le _
  · split
    · exact Nat.zero_le _
    · exact scaled

theorem referenceArea_eq (inside : shape.Inside pass slice index) :
    referenceArea pass slice index shape.segment shape.columns =
      some (shape.area (shape.number pass slice index), startOf shape pass slice) := by
  have below := inside.lt_columns
  have few := inside.slice
  have narrow := inside.narrow
  have positive := inside.area_pos
  have scaled : (slice + 1) * shape.segment ≤ 4 * shape.segment := Nat.mul_le_mul_right _ few
  have order : slice * shape.segment = shape.segment * slice := Nat.mul_comm _ _
  have step := inside.index
  rw [inside.area_eq] at positive ⊢
  rw [Shape.columns] at below positive ⊢
  by_cases first : pass = 0
  · rw [if_pos first] at positive
    rw [referenceArea, startOf, if_pos first, if_pos first, if_pos first, mul_eq (by omega), pure_bind, add_eq (by omega),
      pure_bind, sub_eq (by omega) (by omega)]
    rfl
  · rw [if_neg first] at positive
    rw [referenceArea, startOf, if_neg first, if_neg first, if_neg first, sub_eq (by omega) (by omega), pure_bind,
      add_eq (by omega), pure_bind, sub_eq (by omega) (by omega), pure_bind]
    by_cases last : slice = 3
    · rw [if_pos last, if_pos last]
      rfl
    · rw [if_neg last, if_neg last, add_eq (by omega), pure_bind, mul_eq (by omega)]
      rfl

/-- Modulo the size of the memory, the area starts at the oldest block. -/
theorem startOf_modEq (inside : shape.Inside pass slice index) (relative : Nat) :
    (startOf shape pass slice + relative) % shape.columns =
      (shape.oldest (shape.number pass slice index) + relative) % shape.columns := by
  rw [inside.oldest_eq, startOf]
  split
  · rfl
  · rw [Nat.add_assoc, Nat.mul_add_mod]

theorem referenceIndex_eq (inside : shape.Inside pass slice index) (word : Qword) :
    referenceIndex word pass slice index shape.segment shape.columns =
      some (shape.reference (shape.number pass slice index) word % shape.columns) := by
  have positive := inside.area_pos
  have small := inside.area_lt
  have start := startOf_le inside
  have narrow : shape.columns < 2 ^ 32 := inside.narrow
  have scaled := Shape.scaled_lt (Shape.trunc_lt word) positive
  have square : (trunc word).toNat ^ 2 = (trunc word).toNat * (trunc word).toNat := Nat.pow_two _
  have short := Shape.trunc_lt word
  have wide : (trunc word).toNat * (trunc word).toNat < 2 ^ 64 := by
    have bound := Nat.mul_lt_mul'' short short
    omega
  have product : shape.area (shape.number pass slice index) * ((trunc word).toNat * (trunc word).toNat / 2 ^ 32) < 2 ^ 64 := by
    have low : (trunc word).toNat * (trunc word).toNat / 2 ^ 32 < 2 ^ 32 := by omega
    have bound := Nat.mul_lt_mul'' (Nat.lt_trans small narrow) low
    omega
  rw [square] at scaled
  have kept : shape.columns ≠ 0 := by omega
  have some_area : 1 ≤ shape.area (shape.number pass slice index) := positive
  rw [referenceIndex, referenceArea_eq inside]
  simp only [Option.bind_eq_bind, Option.bind_some, and_mask_eq_trunc]
  rw [mul_eq wide, sub_eq (by omega) some_area]
  simp only [Option.pure_def, Option.bind_some]
  rw [mul_eq product]
  simp only [Option.pure_def, Option.bind_some]
  rw [sub_eq (by omega) (by omega)]
  simp only [Option.pure_def, Option.bind_some]
  rw [add_eq (by omega)]
  simp only [Option.pure_def, Option.bind_some, if_neg kept]
  rw [startOf_modEq inside, ← square]
  rfl

end References

section Storage

open Rfc9106

variable {shape : Shape} {blocks memory : List Block}

/-- A memory that holds the last of these blocks, each at its number modulo its size. -/
structure Stores (shape : Shape) (blocks memory : List Block) : Prop where
  size : memory.length = shape.columns
  held : ∀ k < blocks.length, blocks.length ≤ k + shape.columns → memory[k % shape.columns]? = blocks[k]?

theorem Stores.read (stores : Stores shape blocks memory) {k : Nat} (made : k < blocks.length)
    (recent : blocks.length ≤ k + shape.columns) :
    memory[k % shape.columns]? = some (blocks.getD k (blockFrom [])) := by
  rw [stores.held k made recent, List.getD_eq_getElem?_getD, List.getElem?_eq_getElem made, Option.getD_some]

/-- Numbers less than a round apart have different places. -/
theorem mod_ne_mod {a b size : Nat} (before : a < b) (near : b < a + size) : a % size ≠ b % size := by
  intro same
  obtain ⟨rounds, far⟩ := (Nat.modEq_iff_dvd' before.le).mp same
  cases rounds with
  | zero => omega
  | succ rounds =>
      rw [Nat.mul_succ] at far
      omega

/-- The next block takes the place of the oldest one. -/
theorem Stores.write (stores : Stores shape blocks memory) (positive : 0 < shape.columns) (block : Block) :
    Stores shape (blocks ++ [block]) (memory.set (blocks.length % shape.columns) block) := by
  constructor
  · rw [List.length_set, stores.size]
  · intro k made recent
    rw [List.length_append, List.length_singleton] at made recent
    by_cases last : k = blocks.length
    · have inside : blocks.length % shape.columns < memory.length := by
        rw [stores.size]
        exact Nat.mod_lt _ positive
      simp [last, inside]
    · have earlier : k < blocks.length := by omega
      have elsewhere := mod_ne_mod earlier (by omega : blocks.length < k + shape.columns)
      rw [List.getElem?_set_ne elsewhere.symm, List.getElem?_append_left earlier]
      exact stores.held k earlier (by omega)

theorem blocks_succ (first second : Block) {n : Nat} (second_made : 2 ≤ n) :
    shape.blocks first second (n + 1) = shape.blocks first second n ++ [shape.next (shape.blocks first second n)] := by
  have more : n + 1 - 2 = n - 2 + 1 := by omega
  rw [Shape.blocks, more, List.range_succ, List.foldl_append]
  rfl

theorem blocks_length (first second : Block) {n : Nat} (second_made : 2 ≤ n) :
    (shape.blocks first second n).length = n := by
  induction n, second_made using Nat.le_induction with
  | base => rfl
  | succ n second_made ih => rw [blocks_succ first second second_made, List.length_append, ih, List.length_singleton]

end Storage

section Addresses

open Rfc9106

variable {shape : Shape} {pass slice index : Nat}

theorem put_blockFrom (front : List Qword) (x y : Qword) {i : Fin 128} (place : i.val = front.length) :
    put (blockFrom (front ++ [x])) i y = blockFrom (front ++ [y]) := by
  apply vector_ext
  intro j
  rw [get_put, blockFrom, blockFrom, get_ofFn, get_ofFn]
  by_cases here : i = j
  · rw [if_pos here, ← here, place]
    simp
  · rw [if_neg here]
    have other : j.val ≠ front.length := by
      intro same
      exact here (Fin.ext (place.trans same.symm))
    by_cases before : j.val < front.length
    · rw [List.getD_append _ _ _ _ before, List.getD_append _ _ _ _ before]
    · have behind : front.length < j.val := by omega
      rw [List.getD_eq_default _ _ (by simpa using behind), List.getD_eq_default _ _ (by simpa using behind)]

theorem blockFrom_zero (front : List Qword) : blockFrom (front ++ [0]) = blockFrom front := by
  apply vector_ext
  intro j
  rw [blockFrom, blockFrom, get_ofFn, get_ofFn]
  by_cases before : j.val < front.length
  · rw [List.getD_append _ _ _ _ before]
  · rw [List.getD_append_right _ _ _ _ (by omega), List.getD_eq_default front _ (by omega)]
    cases j.val - front.length with
    | zero => rfl
    | succ _ => rfl

/-- Where the address blocks of a segment stand before a block is made. -/
structure Addressed (shape : Shape) (pass slice index : Nat) (s : Filling) : Prop where
  counter : s.addressCounter = (index + 127) / 128
  input : s.inputBlock = shape.addressInput pass slice s.addressCounter
  block : 0 < s.addressCounter → s.addressBlock = shape.addresses pass slice s.addressCounter

/-- The next address block. -/
theorem nextAddresses_eq {s : Filling} (input : s.inputBlock = shape.addressInput pass slice s.addressCounter)
    (fits : s.addressCounter + 1 < 2 ^ 64) :
    s.nextAddresses = some { s with
      addressCounter := s.addressCounter + 1
      inputBlock := shape.addressInput pass slice (s.addressCounter + 1)
      addressBlock := shape.addresses pass slice (s.addressCounter + 1) } := by
  have counted : put s.inputBlock COUNTED (BitVec.ofNat 64 (s.addressCounter + 1)) =
      shape.addressInput pass slice (s.addressCounter + 1) := by
    rw [input]
    exact put_blockFrom ([pass, 0, slice, shape.columns, shape.passes, 2].map (BitVec.ofNat 64)) _ _ rfl
  simp only [Filling.nextAddresses, add_eq fits, Option.pure_def, Option.bind_eq_bind, Option.bind_some, counted,
    nextAddressBlock, compressBlocks_eq]
  rfl

end Addresses

section Loops

open Rfc9106

variable {shape : Shape} {first second : Block} {pass slice index : Nat} {s : Filling}

/-- Before a block is made: memory holds the last of those before it. -/
structure Progress (shape : Shape) (first second : Block) (pass slice index : Nat) (s : Filling) : Prop where
  stores : Stores shape (shape.blocks first second (shape.number pass slice index)) s.memory
  addressed : pass = 0 ∧ slice < 2 → Addressed shape pass slice index s

/-- The place of the block before. -/
theorem previous_eq (inside : shape.Inside pass slice index) :
    previousIndex (shape.segment * slice + index) shape.columns =
      some ((shape.number pass slice index - 1) % shape.columns) := by
  have below := inside.lt_columns
  have narrow : shape.columns < 2 ^ 32 := inside.narrow
  have second := inside.second
  rw [Shape.number] at second ⊢
  rw [previousIndex]
  by_cases turn : shape.segment * slice + index = 0
  · rw [if_pos turn, sub_eq (by omega) (by omega)]
    cases pass with
    | zero => omega
    | succ pass =>
        have back : shape.columns * (pass + 1) + (shape.segment * slice + index) - 1 =
            shape.columns * pass + (shape.columns - 1) := by
          rw [Nat.mul_succ]
          omega
        rw [back, Nat.mul_add_mod, Nat.mod_eq_of_lt (by omega)]
        rfl
  · have back : shape.columns * pass + (shape.segment * slice + index) - 1 =
        shape.columns * pass + (shape.segment * slice + index - 1) := by omega
    rw [if_neg turn, sub_eq (by omega) (by omega), back, Nat.mul_add_mod, Nat.mod_eq_of_lt (by omega)]
    rfl

theorem Progress.pseudoRandom (progress : Progress shape first second pass slice index s)
    (inside : shape.Inside pass slice index) :
    ∃ s', pseudoRandom (decide (pass = 0 ∧ slice < 2)) s index ((shape.number pass slice index - 1) % shape.columns) =
        some (s', shape.J (shape.blocks first second (shape.number pass slice index))) ∧
      s'.memory = s.memory ∧ (pass = 0 ∧ slice < 2 → Addressed shape pass slice (index + 1) s') := by
  have length : (shape.blocks first second (shape.number pass slice index)).length = shape.number pass slice index :=
    blocks_length first second inside.second
  have columns := inside.lt_columns
  by_cases independent : pass = 0 ∧ slice < 2
  · obtain ⟨counter, input, block⟩ := progress.addressed independent
    have word (s' : Filling) (current : s'.addressBlock = shape.addresses pass slice (index / 128 + 1)) :
        s'.addressBlock.toList.getD (index % QWORDS) 0 =
          shape.J (shape.blocks first second (shape.number pass slice index)) := by
      simp only [Shape.J, length, inside.pass_eq, inside.slice_eq, inside.index_eq, if_pos independent, current, QWORDS]
    simp only [Argon2.pseudoRandom, decide_eq_true independent, ↓reduceIte]
    by_cases turn : index % QWORDS = 0
    · have exact_turn : index % 128 = 0 := turn
      have number : s.addressCounter + 1 = index / 128 + 1 := by omega
      have narrow := inside.narrow
      have few := inside.index
      have next := nextAddresses_eq input (by omega)
      rw [number] at next
      rw [if_pos turn, next]
      refine ⟨_, congrArg (fun w => some (_, w)) (word _ rfl), rfl, fun _ => ⟨?_, rfl, fun _ => rfl⟩⟩
      show index / 128 + 1 = (index + 1 + 127) / 128
      omega
    · have off_turn : index % 128 ≠ 0 := turn
      have number : s.addressCounter = index / 128 + 1 := by omega
      rw [if_neg turn]
      refine ⟨s, congrArg (fun w => some (s, w)) (word s ?_), rfl, fun _ => ⟨by omega, input, block⟩⟩
      rw [← number]
      exact block (by omega)
  · have second := inside.second
    have read := progress.stores.read (k := shape.number pass slice index - 1) (by omega) (by omega)
    refine ⟨s, ?_, rfl, fun both => absurd both independent⟩
    simp only [Argon2.pseudoRandom, decide_eq_false independent, Bool.false_eq_true, ↓reduceIte, read, Shape.J, length,
      inside.pass_eq, inside.slice_eq, if_neg independent]
    rfl

/-- One block. -/
theorem Progress.fillBlock (progress : Progress shape first second pass slice index s)
    (inside : shape.Inside pass slice index) :
    ∃ s', fillBlock pass slice shape.segment shape.columns (decide (pass = 0 ∧ slice < 2)) s index = some s' ∧
      Progress shape first second pass slice (index + 1) s' := by
  have length : (shape.blocks first second (shape.number pass slice index)).length = shape.number pass slice index :=
    blocks_length first second inside.second
  obtain ⟨blocks, eblocks⟩ : ∃ blocks, blocks = shape.blocks first second (shape.number pass slice index) := ⟨_, rfl⟩
  obtain ⟨drawn, ran, same, addressed⟩ := progress.pseudoRandom inside
  obtain ⟨early, recent⟩ := inside.reference_bounds (shape.J blocks)
  have below := inside.lt_columns
  have narrow : shape.columns < 2 ^ 32 := inside.narrow
  have second_made := inside.second
  have stores := progress.stores
  rw [← eblocks] at length ran stores
  have place : Arithmetic.mul 64 slice shape.segment = some (shape.segment * slice) := by
    rw [mul_eq (by rw [Nat.mul_comm]; omega), Nat.mul_comm]
    rfl
  have current : Arithmetic.add 64 (shape.segment * slice) index = some (shape.segment * slice + index) := add_eq (by omega)
  have last := stores.read (k := shape.number pass slice index - 1) (by omega) (by omega)
  have referred := stores.read (k := shape.reference (shape.number pass slice index) (shape.J blocks)) (by omega) (by omega)
  have room : shape.segment * slice + index < s.memory.length := by
    rw [stores.size]
    exact below
  obtain ⟨mixed, emixed⟩ : ∃ mixed, mixed = G (blocks.getD (shape.number pass slice index - 1) (blockFrom []))
      (blocks.getD (shape.reference (shape.number pass slice index) (shape.J blocks)) (blockFrom [])) := ⟨_, rfl⟩
  -- either way what is written is the next block, in the place of the oldest
  have written (block : Block) (next : block = shape.next blocks) :
      Progress shape first second pass slice (index + 1)
        { drawn with memory := s.memory.set (shape.segment * slice + index) block } := by
    have stored := stores.write (Nat.zero_lt_of_lt below) block
    have more : shape.blocks first second (shape.number pass slice index + 1) = blocks ++ [block] := by
      rw [blocks_succ first second second_made, next, eblocks]
    rw [length, inside.mod_columns, ← more] at stored
    refine ⟨stored, fun independent => ?_⟩
    obtain ⟨counter, input, block⟩ := addressed independent
    exact ⟨counter, input, block⟩
  simp only [Argon2.fillBlock, place, current, previous_eq inside, Option.bind_eq_bind, Option.bind_some, ran,
    referenceIndex_eq inside, same, last, referred, compressBlocks_eq, ← emixed]
  by_cases start : pass = 0
  · have early_on : blocks.length < shape.columns := by
      rw [length, Shape.number, start, Nat.mul_zero, Nat.zero_add]
      exact below
    rw [if_pos start, store_eq room]
    refine ⟨_, rfl, written mixed ?_⟩
    rw [Shape.next]
    simp only [if_pos early_on]
    rw [length, ← emixed]
  · have later : shape.columns ≤ shape.number pass slice index := by
      rw [Shape.number]
      exact Nat.le_add_right_of_le (Nat.le_mul_of_pos_right _ (Nat.pos_of_ne_zero start))
    have old := stores.read (k := shape.number pass slice index - shape.columns) (by omega) (by omega)
    rw [← Nat.mod_eq_sub_mod later, inside.mod_columns] at old
    rw [if_neg start, old, Option.bind_some, store_eq room]
    refine ⟨_, rfl, written _ ?_⟩
    rw [Shape.next]
    simp only [length, if_neg (Nat.not_lt.mpr later)]
    rw [← emixed]
    exact Vector.ext fun i inside => by simp only [Vector.getElem_zipWith, BitVec.xor_comm]

theorem startIndex_le (pass slice : Nat) : startIndex pass slice ≤ 2 := by
  rw [startIndex]
  split
  · exact Nat.le_refl 2
  · exact Nat.zero_le 2

/-- Behind the start of a segment there are two blocks. -/
theorem two_le_number (wide : 2 ≤ shape.segment) (begun : startIndex pass slice ≤ index) :
    2 ≤ shape.number pass slice index := by
  rw [startIndex] at begun
  rw [Shape.number, Shape.columns]
  cases pass with
  | zero =>
      cases slice with
      | zero =>
          rw [if_pos ⟨rfl, rfl⟩] at begun
          omega
      | succ slice =>
          rw [Nat.mul_succ]
          omega
  | succ pass =>
      rw [Nat.mul_succ]
      omega

/-- One segment. -/
theorem fillSegment_some {memory : List Block} (wide : 2 ≤ shape.segment) (narrow : 4 * shape.segment < 2 ^ 32)
    (few : slice < 4)
    (stores : Stores shape (shape.blocks first second (shape.number pass slice (startIndex pass slice))) memory) :
    ∃ memory', fillSegment shape.passes shape.columns shape.segment shape.columns pass memory slice = some memory' ∧
      Stores shape (shape.blocks first second (shape.number pass slice shape.segment)) memory' := by
  obtain ⟨s, es⟩ : ∃ s : Filling, s =
    { memory, addressBlock := blockFrom [], addressCounter := 0
      inputBlock := if decide (pass = 0 ∧ slice < 2) then
          blockFrom ([pass, 0, slice, shape.columns, shape.passes, 2].map (BitVec.ofNat 64)) else blockFrom [] } := ⟨_, rfl⟩
  have zeroed : pass = 0 ∧ slice < 2 → s.inputBlock = shape.addressInput pass slice s.addressCounter := by
    intro independent
    rw [es]
    simp only [decide_eq_true independent, ↓reduceIte]
    exact (blockFrom_zero _).symm
  have begun : ∃ s', firstAddresses (decide (pass = 0 ∧ slice < 2)) (startIndex pass slice) s = some s' ∧
      Progress shape first second pass slice (startIndex pass slice) s' := by
    by_cases early : pass = 0 ∧ slice = 0
    · have independent : pass = 0 ∧ slice < 2 := ⟨early.1, by omega⟩
      have two : startIndex pass slice = 2 := if_pos early
      have zero : s.addressCounter = 0 := by rw [es]
      have next := nextAddresses_eq (zeroed independent) (by omega)
      rw [firstAddresses, if_pos ⟨decide_eq_true independent, two⟩, next]
      refine ⟨_, rfl, ?_, fun _ => ⟨?_, rfl, fun _ => rfl⟩⟩
      · show Stores shape _ s.memory
        rw [es]
        exact stores
      · show s.addressCounter + 1 = _
        rw [zero, two]
    · have none : startIndex pass slice = 0 := if_neg early
      rw [firstAddresses, if_neg (by simp [none])]
      refine ⟨s, rfl, ?_, fun independent => ⟨?_, zeroed independent, ?_⟩⟩
      · rw [es]
        exact stores
      · rw [es, none]
      · rw [es]
        exact fun more => absurd more (Nat.lt_irrefl 0)
  have small := startIndex_le pass slice
  obtain ⟨s', first_addresses, progress⟩ := begun
  have loop : ∃ last, (List.range' (startIndex pass slice) (shape.segment - startIndex pass slice)).foldlM
        (fillBlock pass slice shape.segment shape.columns (decide (pass = 0 ∧ slice < 2))) s' = some last ∧
      Progress shape first second pass slice (startIndex pass slice + (shape.segment - startIndex pass slice)) last := by
    apply foldlM_range'_some (P := Progress shape first second pass slice) ?_ progress
    intro index s above below progress
    exact progress.fillBlock ⟨two_le_number wide above, few, by omega, wide, narrow⟩
  obtain ⟨last, ran, done⟩ := loop
  have whole : startIndex pass slice + (shape.segment - startIndex pass slice) = shape.segment := by omega
  rw [whole] at done
  refine ⟨last.memory, ?_, done.stores⟩
  rw [es] at first_addresses
  rw [fillSegment]
  simp only [Option.bind_eq_bind, first_addresses, Option.bind_some, ran]
  rfl

theorem number_next_slice (shape : Shape) (pass slice : Nat) :
    shape.number pass slice shape.segment = shape.number pass (slice + 1) 0 := by
  rw [Shape.number, Shape.number, Nat.mul_succ, Nat.add_zero]

theorem number_next_pass (shape : Shape) (pass : Nat) : shape.number pass 4 0 = shape.number (pass + 1) 0 0 := by
  rw [Shape.number, Shape.number, Shape.columns]
  ring

/-- One pass. -/
theorem fillPass_some {memory : List Block} (wide : 2 ≤ shape.segment) (narrow : 4 * shape.segment < 2 ^ 32)
    (stores : Stores shape (shape.blocks first second (shape.number pass 0 (startIndex pass 0))) memory) :
    ∃ memory', (List.range 4).foldlM (fillSegment shape.passes shape.columns shape.segment shape.columns pass) memory =
        some memory' ∧
      Stores shape (shape.blocks first second (shape.number pass 4 0)) memory' := by
  have loop : ∃ memory', (List.range 4).foldlM (fillSegment shape.passes shape.columns shape.segment shape.columns pass)
        memory = some memory' ∧
      Stores shape (shape.blocks first second (shape.number pass 4 (startIndex pass 4))) memory' := by
    apply foldlM_range_some
      (P := fun slice memory => Stores shape (shape.blocks first second (shape.number pass slice (startIndex pass slice))) memory)
      ?_ stores
    intro slice memory few stores
    obtain ⟨memory', ran, done⟩ := fillSegment_some wide narrow few stores
    have later : startIndex pass (slice + 1) = 0 := if_neg fun both => Nat.succ_ne_zero slice both.2
    rw [number_next_slice, ← later] at done
    exact ⟨memory', ran, done⟩
  obtain ⟨memory', ran, done⟩ := loop
  have later : startIndex pass 4 = 0 := if_neg fun both => absurd both.2 (by decide)
  rw [later] at done
  exact ⟨memory', ran, done⟩

/-- After all passes memory holds the last blocks of the computation. -/
theorem fill_some {memory : List Block} (wide : 2 ≤ shape.segment) (narrow : 4 * shape.segment < 2 ^ 32)
    (some_passes : 1 ≤ shape.passes) (stores : Stores shape [first, second] memory) :
    ∃ memory', fill shape.passes shape.columns shape.segment shape.columns memory = some memory' ∧
      Stores shape (shape.blocks first second (shape.columns * shape.passes)) memory' := by
  have begun : Stores shape (shape.blocks first second (shape.number 0 0 (startIndex 0 0))) memory := by
    have two : shape.number 0 0 (startIndex 0 0) = 2 := by
      rw [Shape.number, startIndex, if_pos ⟨rfl, rfl⟩]
      omega
    rw [two]
    exact stores
  have loop : ∃ memory', fill shape.passes shape.columns shape.segment shape.columns memory = some memory' ∧
      Stores shape (shape.blocks first second (shape.number shape.passes 0 (startIndex shape.passes 0))) memory' := by
    apply foldlM_range_some
      (P := fun pass memory => Stores shape (shape.blocks first second (shape.number pass 0 (startIndex pass 0))) memory)
      ?_ begun
    intro pass memory _ stores
    obtain ⟨memory', ran, done⟩ := fillPass_some wide narrow stores
    have later : startIndex (pass + 1) 0 = 0 := if_neg fun both => Nat.succ_ne_zero pass both.1
    rw [number_next_pass] at done
    rw [later]
    exact ⟨memory', ran, done⟩
  obtain ⟨memory', ran, done⟩ := loop
  have later : shape.number shape.passes 0 (startIndex shape.passes 0) = shape.columns * shape.passes := by
    rw [startIndex, if_neg (fun both => by omega), Shape.number, Nat.mul_zero, Nat.add_zero]
  rw [later] at done
  exact ⟨memory', ran, done⟩

end Loops

end Blindplane.Crypto.Argon2
