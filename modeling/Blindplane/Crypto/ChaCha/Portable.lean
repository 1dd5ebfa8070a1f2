import Blindplane.Crypto.ChaCha.Rounds
import Mathlib.Data.List.FinRange
import Mathlib.Algebra.BigOperators.Group.List.Basic

/-! # ChaCha20, four blocks at a time

Blocks are computed in lanes, four together, of which a short tail uses fewer. What one
pass of the loop XORs and how far it moves the counter is what a single stream says, so
the stream goes on unbroken from call to call as long as only the last buffer is ragged.
-/

namespace Blindplane.Crypto

open Lib

/-- Four 32-bit lanes operated on together. -/
abbrev Lane := Vector Word 4

namespace Lane

def splat (value : Word) : Lane := Vector.ofFn fun _ => value

def add (a b : Lane) : Lane := Vector.ofFn fun i => a.get i + b.get i

def xor (a b : Lane) : Lane := Vector.ofFn fun i => a.get i ^^^ b.get i

def rotateLeft (n : Nat) (a : Lane) : Lane := Vector.ofFn fun i => (a.get i).rotateLeft n

/-- The quarter round on lanes. -/
def ops : RoundOps Lane where
  add := add
  xor := xor
  rotl16 := rotateLeft 16
  rotl12 := rotateLeft 12
  rotl8 := rotateLeft 8
  rotl7 := rotateLeft 7

/-- Lanes do not mix. -/
theorem get_hom (block : Fin 4) : RoundOps.Hom ops Word.ops (·.get block) where
  add _ _ := get_ofFn _ block
  xor _ _ := get_ofFn _ block
  rotl16 _ := get_ofFn _ block
  rotl12 _ := get_ofFn _ block
  rotl8 _ := get_ofFn _ block
  rotl7 _ := get_ofFn _ block

end Lane

/-- A ChaCha20 keystream generator. -/
structure ChaCha20 where
  state : Vector Word 16

namespace ChaCha20

def SIGMA : List Word := [0x61707865, 0x3320646e, 0x79622d32, 0x6b206574]

/-- Create a generator for a 256-bit key and 96-bit nonce. -/
def new (key : Vector UInt8 32) (nonce : Vector UInt8 12) (counter : Word) : ChaCha20 where
  state := Vector.ofFn fun i =>
    if i.val < 4 then SIGMA.getD i.val 0
    else if i.val < 12 then wordAt key.toList (i.val - 4)
    else if i.val = 12 then counter
    else wordAt nonce.toList (i.val - 13)

/-- The state in four lanes; only the counter differs between the blocks in flight. -/
def broadcast (state : Vector Word 16) : Vector Lane 16 :=
  put (state.map Lane.splat) COUNTER (Vector.ofFn fun block => state.get COUNTER + BitVec.ofNat 32 block.val)

/-- Write the next 256 bytes of keystream, advancing the counter by four. -/
def fourBlocks (cipher : ChaCha20) : ChaCha20 × Bytes :=
  let v := Lane.ops.permute (broadcast cipher.state)
  let out := (List.finRange 4).flatMap fun block =>
    v.toList.flatMap fun lane => Bytes.le 4 (lane.get block).toNat
  ({ state := put cipher.state COUNTER (cipher.state.get COUNTER + 4) }, out)

/-- XOR the keystream into `data` in place. -/
def applyKeystream (cipher : ChaCha20) (data : Bytes) : ChaCha20 × Bytes :=
  if empty : data = [] then (cipher, [])
  else
    let counter := cipher.state.get COUNTER
    let (cipher, keystream) := cipher.fourBlocks
    let take := min 256 data.length
    let front := xorBytes (data.take take) keystream
    -- a short tail consumes fewer than four blocks
    let blocks := (take + 63) / 64
    let cipher := { state := put cipher.state COUNTER (counter + BitVec.ofNat 32 blocks) }
    let (cipher, back) := applyKeystream cipher (data.drop take)
    (cipher, front ++ back)
termination_by data.length
decreasing_by
  have positive := List.length_pos_iff.mpr empty
  rw [List.length_drop]
  omega

/-- Buffers in turn, on one generator. -/
def applyAll (cipher : ChaCha20) : List Bytes → ChaCha20 × List Bytes
  | [] => (cipher, [])
  | buffer :: rest =>
      let (cipher, out) := cipher.applyKeystream buffer
      let (cipher, outs) := cipher.applyAll rest
      (cipher, out :: outs)

/-- A lane of the broadcast state is the state so many blocks on. -/
theorem map_broadcast (state : Vector Word 16) (block : Fin 4) :
    (broadcast state).map (·.get block) = advance state block.val := by
  apply vector_ext
  intro i
  rw [← get_map, broadcast, advance, get_put, get_put]
  split
  · exact get_ofFn _ block
  · rw [← get_map]
    exact get_ofFn _ block

/-- Four blocks of the stream. -/
theorem fourBlocks_keystream (cipher : ChaCha20) :
    cipher.fourBlocks.2 = (List.range 4).flatMap (keystream cipher.state) := by
  have lanes : ∀ block : Fin 4,
      ((Lane.ops.permute (broadcast cipher.state)).toList.flatMap fun lane => Bytes.le 4 (lane.get block).toNat) =
        keystream cipher.state block.val := by
    intro block
    rw [keystream, Rfc8439.block_eq, ← map_broadcast, ← (Lane.get_hom block).permute, Rfc8439.serialize,
      Vector.toList_map, List.flatMap_map]
  have indices : List.range 4 = (List.finRange 4).map Fin.val := rfl
  rw [indices, List.flatMap_map]
  simp only [fourBlocks, lanes]

/-- What a call leaves: the stream XORed in, and the counter past the blocks used. -/
theorem applyKeystream_eq (cipher : ChaCha20) (data : Bytes) :
    cipher.applyKeystream data =
      ({ state := advance cipher.state ((data.length + 63) / 64) }, xorStream 64 (keystream cipher.state) data) := by
  induction size : data.length using Nat.strong_induction_on generalizing cipher data with
  | _ size' ih =>
    subst size
    by_cases empty : data = []
    · rw [applyKeystream, dif_pos empty, empty, xorStream_nil]
      exact congrArg (fun state => (ChaCha20.mk state, [])) (advance_zero _).symm
    · have positive := List.length_pos_iff.mpr empty
      have shorter : (data.drop (min 256 data.length)).length < data.length := by
        rw [List.length_drop]
        omega
      have fits : (data.take (min 256 data.length)).length ≤ 64 * 4 := by
        rw [List.length_take]
        omega
      have front := @xorStream_group 64 (keystream cipher.state) _ 4 (by decide) (keystream_length _) fits
      have back := ih _ shorter { state := advance cipher.state ((min 256 data.length + 63) / 64) } _ rfl
      have counter : ChaCha20.mk (put cipher.fourBlocks.1.state COUNTER
          (cipher.state.get COUNTER + BitVec.ofNat 32 ((min 256 data.length + 63) / 64))) =
            ChaCha20.mk (advance cipher.state ((min 256 data.length + 63) / 64)) := by
        rw [fourBlocks, put_put, advance]
      rw [applyKeystream, dif_neg empty]
      simp only [counter, back, fourBlocks_keystream, ← front, advance_advance]
      rcases Nat.lt_or_ge data.length 256 with short | long
      · have all : min 256 data.length = data.length := by omega
        rw [all, List.drop_length, List.take_length, xorStream_nil, List.append_nil]
        rfl
      · have first : (data.take 256).length = 256 := by
          rw [List.length_take]
          omega
        have whole : 64 ∣ (data.take 256).length := by
          rw [first]
          exact Dvd.intro 4 rfl
        have blocks : (256 + 63) / 64 + ((data.drop 256).length + 63) / 64 = (data.length + 63) / 64 := by
          rw [List.length_drop]
          omega
        have joined := @xorStream_append 64 (keystream cipher.state) (by decide) _ whole (data.drop 256)
        rw [List.take_append_drop, first] at joined
        rw [Nat.min_eq_left long, blocks, joined, keystream_advance]

/-- Streams go on from call to call: when every buffer but the last is a whole number of
    blocks, byte `j` of all of them together is XORed with byte `j` of the stream. -/
theorem applyAll_eq (cipher : ChaCha20) (buffers : List Bytes) (whole : ∀ buffer ∈ buffers.dropLast, 64 ∣ buffer.length) :
    (cipher.applyAll buffers).1.state =
        advance cipher.state ((buffers.map fun buffer => (buffer.length + 63) / 64).sum) ∧
      (cipher.applyAll buffers).2.flatten = xorStream 64 (keystream cipher.state) buffers.flatten ∧
      (cipher.applyAll buffers).2.map List.length = buffers.map List.length := by
  induction buffers generalizing cipher with
  | nil => exact ⟨(advance_zero _).symm, rfl, rfl⟩
  | cons buffer rest ih =>
      have later : ∀ b ∈ rest.dropLast, 64 ∣ b.length := by
        intro b member
        cases rest with
        | nil => cases member
        | cons next rest => exact whole b (List.mem_cons_of_mem _ member)
      obtain ⟨state, bytes, lengths⟩ := ih { state := advance cipher.state ((buffer.length + 63) / 64) } later
      rw [applyAll, applyKeystream_eq]
      refine ⟨?_, ?_, ?_⟩
      · rw [state, advance_advance, List.map_cons, List.sum_cons]
      · rw [List.flatten_cons, List.flatten_cons, bytes]
        cases rest with
        | nil => rw [List.flatten_nil, xorStream_nil, List.append_nil, List.append_nil]
        | cons next rest =>
            have block := whole buffer List.mem_cons_self
            have ceiling : (buffer.length + 63) / 64 = buffer.length / 64 := by omega
            rw [xorStream_append (by decide) block, ceiling, keystream_advance]
      · rw [List.map_cons, List.map_cons, lengths, xorStream_length]

theorem new_state (key : Vector UInt8 32) (nonce : Vector UInt8 12) (counter : Word) :
    (new key nonce counter).state = Rfc8439.initState key counter nonce := rfl

/-- The portable generator writes the stream of RFC 8439, over any number of calls, and
    afterwards only the counter has changed. -/
theorem applyAll_eq_rfc8439 (key : Vector UInt8 32) (nonce : Vector UInt8 12) (counter : Word) (buffers : List Bytes)
    (whole : ∀ buffer ∈ buffers.dropLast, 64 ∣ buffer.length) :
    (∀ j, ((new key nonce counter).applyAll buffers).2.flatten[j]? =
      buffers.flatten[j]?.map (· ^^^
        (Rfc8439.chacha20Block key (counter + BitVec.ofNat 32 (j / 64)) nonce).getD (j % 64) 0)) ∧
      ((new key nonce counter).applyAll buffers).2.map List.length = buffers.map List.length ∧
      ∀ i, ((new key nonce counter).applyAll buffers).1.state.get i =
        if i = COUNTER then counter + BitVec.ofNat 32 ((buffers.map fun buffer => (buffer.length + 63) / 64).sum)
        else (new key nonce counter).state.get i := by
  obtain ⟨state, bytes, lengths⟩ := applyAll_eq (new key nonce counter) buffers whole
  refine ⟨fun j => ?_, lengths, fun i => ?_⟩
  · rw [bytes, new_state, xorStream, List.getElem?_mapIdx]
    simp only [keystream_initState]
  · have start : (new key nonce counter).state.get COUNTER = counter := get_ofFn _ COUNTER
    rw [state, advance, get_put, start]
    simp only [eq_comm]

/-- A whole block and a ragged one, from counter 1 on. -/
theorem two_buffers_counter :
    ((new (Vector.replicate 32 7) (Vector.replicate 12 9) 1).applyAll [List.replicate 64 0, [1, 2, 3]]).1.state.get
      COUNTER = 3 := by
  have blocks := (applyAll_eq_rfc8439 (Vector.replicate 32 7) (Vector.replicate 12 9) 1
    [List.replicate 64 0, [1, 2, 3]] (by decide)).2.2 COUNTER
  rw [blocks, if_pos rfl]
  rfl

end ChaCha20

end Blindplane.Crypto
