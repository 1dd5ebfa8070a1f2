import Blindplane.Crypto.ChaCha.Portable
import Blindplane.Lib.Simd

/-! # ChaCha20 on NEON

Four blocks to a group of registers, two groups at a time while the data lasts. A lane of
the registers goes through the rounds as a state of words does, whichever instructions
the rotations are made of; the transposes put the lanes back in block order.
-/

namespace Blindplane.Crypto.Neon

open Lib Simd

/-- Byte permutation implementing a left rotate by 8 within each 32-bit lane. -/
def ROT8 : Bytes := [3, 0, 1, 2, 7, 4, 5, 6, 11, 8, 9, 10, 15, 12, 13, 14]

def rotl16 (x : Register) : Register := vrev32q_u16 x

def rotl8 (x table : Register) : Register := vqtbl1q_u8 x table

def rotl12 (x : Register) : Register := vsriq_n_u32 20 (vshlq_n_u32 12 x) x

def rotl7 (x : Register) : Register := vsriq_n_u32 25 (vshlq_n_u32 7 x) x

/-- The quarter round on registers. -/
def ops (rot8 : Register) : RoundOps Register where
  add := vaddq_u32
  xor := veorq
  rotl16 := rotl16
  rotl12 := rotl12
  rotl8 x := rotl8 x rot8
  rotl7 := rotl7

/-- Transpose four vectors so lane `j` of each becomes vector `j`. -/
def transpose (a b c d : Register) : Vector Register 4 :=
  let t0 := vtrn1q 32 a b
  let t1 := vtrn2q 32 a b
  let t2 := vtrn1q 32 c d
  let t3 := vtrn2q 32 c d
  Vector.ofFn fun j =>
    match j with
    | 0 => vtrn1q 64 t0 t2
    | 1 => vtrn1q 64 t1 t3
    | 2 => vtrn2q 64 t0 t2
    | 3 => vtrn2q 64 t1 t3

def laneOffsets : Register := vld1q_u32 [0, 1, 2, 3]

/-- Broadcast the state into four lanes, with per-lane counters. -/
def broadcastState (state : Vector Word 16) (counter : Word) : Vector Register 16 :=
  put (state.map vdupq_n_u32) COUNTER (vaddq_u32 (vdupq_n_u32 counter) laneOffsets)

/-- The feed-forward addition of the initial state. -/
def feedForward (v : Vector Register 16) (state : Vector Word 16) (counter : Word) : Vector Register 16 :=
  Vector.ofFn fun i =>
    if i ≠ COUNTER then vaddq_u32 (v.get i) (vdupq_n_u32 (state.get i))
    else vaddq_u32 (v.get i) (vaddq_u32 (vdupq_n_u32 counter) laneOffsets)

/-- The rounds of two groups, quarter round by quarter round. -/
def interleavedRounds (rot8 : Register) (groups : Vector Register 16 × Vector Register 16) :
    Vector Register 16 × Vector Register 16 :=
  (List.range 10).foldl (fun groups _ =>
    RoundOps.SCHEDULE.foldl (fun (v, w) (a, b, c, d) =>
      ((ops rot8).quarterRound v a b c d, (ops rot8).quarterRound w a b c d)) groups) groups

/-- A finished group back in block order: the four quarters of every block. -/
def blocks (v : Vector Register 16) : List (Register × Register × Register × Register) :=
  let word := fun i => v.toList.getD i 0
  let g0 := transpose (word 0) (word 1) (word 2) (word 3)
  let g1 := transpose (word 4) (word 5) (word 6) (word 7)
  let g2 := transpose (word 8) (word 9) (word 10) (word 11)
  let g3 := transpose (word 12) (word 13) (word 14) (word 15)
  (List.finRange 4).map fun block => (g0.get block, g1.get block, g2.get block, g3.get block)

/-- XOR a keystream vector into 16 unaligned bytes. -/
def xorStore (bytes : Bytes) (keystream : Register) : Bytes := vst1q (veorq (vld1q bytes) keystream)

/-- XOR a finished group into all 256 bytes. -/
def emit (data : Bytes) (v : Vector Register 16) : Bytes :=
  (blocks v).zipIdx.flatMap fun ((g0, g1, g2, g3), block) =>
    let p := data.drop (block * 64)
    xorStore (p.take 16) g0 ++ xorStore ((p.drop 16).take 16) g1 ++ xorStore ((p.drop 32).take 16) g2 ++
      xorStore ((p.drop 48).take 16) g3

/-- A finished group written to a buffer of its own. -/
def stage (v : Vector Register 16) : Bytes :=
  (blocks v).flatMap fun (g0, g1, g2, g3) => vst1q g0 ++ vst1q g1 ++ vst1q g2 ++ vst1q g3

/-- Four blocks at a time, and the tail. -/
def applyFours (state : Vector Word 16) (data : Bytes) : Vector Word 16 × Bytes :=
  if empty : data = [] then (state, [])
  else
    let counter := state.get COUNTER
    let v := broadcastState state counter
    let v := (ops (vld1q ROT8)).rounds v
    let v := feedForward v state counter
    if 256 ≤ data.length then
      let front := emit (data.take 256) v
      let (state, back) := applyFours (put state COUNTER (counter + 4)) (data.drop 256)
      (state, front ++ back)
    else
      -- the tail is staged, and the counter advances by the blocks actually used
      let blocks := (data.length + 63) / 64
      (put state COUNTER (counter + BitVec.ofNat 32 blocks), xorBytes data (stage v))
termination_by data.length
decreasing_by
  have positive := List.length_pos_iff.mpr empty
  rw [List.length_drop]
  omega

/-- XOR the keystream into `data`, advancing the counter as it goes. -/
def applyKeystream (state : Vector Word 16) (data : Bytes) : Vector Word 16 × Bytes :=
  if eight : 512 ≤ data.length then
    let counter := state.get COUNTER
    let v := broadcastState state counter
    let w := broadcastState state (counter + 4)
    let (v, w) := interleavedRounds (vld1q ROT8) (v, w)
    let v := feedForward v state counter
    let w := feedForward w state (counter + 4)
    let front := emit (data.take 256) v ++ emit ((data.drop 256).take 256) w
    let (state, back) := applyKeystream (put state COUNTER (counter + 8)) (data.drop 512)
    (state, front ++ back)
  else applyFours state data
termination_by data.length
decreasing_by
  rw [List.length_drop]
  omega

section Lanes

variable {i : Nat}

/-- Rotating a word, bit by bit. -/
private theorem getLsbD_rotl (x : BitVec 32) {n : Nat} (fits : n < 32) {j : Nat} (below : j < 32) :
    (x.rotateLeft n).getLsbD j = if j < n then x.getLsbD (32 - n + j) else x.getLsbD (j - n) := by
  rw [BitVec.getLsbD_rotateLeft, Nat.mod_eq_of_lt fits, decide_eq_true below, Bool.true_and, Bool.cond_decide]

/-- Swapping the two halves of a word rotates it by 16. -/
theorem lane_rotl16 (x : Register) (inside : i < 4) : lane 32 (rotl16 x) i = (lane 32 x i).rotateLeft 16 := by
  apply BitVec.eq_of_getLsbD_eq
  intro j below
  have position : 32 * i + j < 128 := by omega
  have bit : 16 * ((32 * i + j) / 16) + (32 * i + j) % 16 = 32 * i + j := Nat.div_add_mod _ 16
  have half : (32 * i + j) % 16 < 16 := Nat.mod_lt _ (by decide)
  rw [getLsbD_lane _ _ below, rotl16, vrev32q_u16, getLsbD_ofLanes _ position, getLsbD_rotl _ (by decide) below]
  by_cases low : j < 16
  · have even : (32 * i + j) / 16 % 2 = 0 := by omega
    rw [if_pos low, if_pos even, getLsbD_lane _ _ half, getLsbD_lane _ _ (by omega)]
    congr 1
    omega
  · have odd : ¬(32 * i + j) / 16 % 2 = 0 := by omega
    rw [if_neg low, if_neg odd, getLsbD_lane _ _ half, getLsbD_lane _ _ (by omega)]
    congr 1
    omega

/-- A shift with the bits inserted that a right shift leaves is a rotation. -/
private theorem insert_rotl (x : BitVec 32) {n : Nat} (fits : n < 32) :
    (x <<< n &&& ~~~(BitVec.allOnes 32 >>> (32 - n))) ||| (x >>> (32 - n)) = x.rotateLeft n := by
  apply BitVec.eq_of_getLsbD_eq
  intro j below
  rw [getLsbD_rotl _ fits below, BitVec.getLsbD_or, BitVec.getLsbD_and, BitVec.getLsbD_not, BitVec.getLsbD_shiftLeft,
    BitVec.getLsbD_ushiftRight, BitVec.getLsbD_ushiftRight, BitVec.getLsbD_allOnes, decide_eq_true below]
  split
  · next low => simp [low]
  · next high =>
    have above : ¬32 - n + j < 32 := by omega
    have none : x.getLsbD (32 - n + j) = false := BitVec.getLsbD_of_ge _ _ (by omega)
    simp [high, above, none]

theorem lane_rotl12 (x : Register) (inside : i < 4) : lane 32 (rotl12 x) i = (lane 32 x i).rotateLeft 12 := by
  rw [rotl12, vsriq_n_u32, vshlq_n_u32, lane_ofLanes _ (by omega), lane_ofLanes _ (by omega)]
  exact insert_rotl _ (by decide)

theorem lane_rotl7 (x : Register) (inside : i < 4) : lane 32 (rotl7 x) i = (lane 32 x i).rotateLeft 7 := by
  rw [rotl7, vsriq_n_u32, vshlq_n_u32, lane_ofLanes _ (by omega), lane_ofLanes _ (by omega)]
  exact insert_rotl _ (by decide)

/-- The table moves the top byte of every word to the bottom. -/
private theorem table_index : ∀ word < 4, ∀ byte < 4,
    (lane 8 (vld1q ROT8) (4 * word + byte)).toNat = 4 * word + (byte + 3) % 4 := by
  decide +kernel

theorem lane_rotl8 (x : Register) (inside : i < 4) : lane 32 (rotl8 x (vld1q ROT8)) i = (lane 32 x i).rotateLeft 8 := by
  apply BitVec.eq_of_getLsbD_eq
  intro j below
  have position : 32 * i + j < 128 := by omega
  have byte : (32 * i + j) / 8 = 4 * i + j / 8 := by omega
  have bit : (32 * i + j) % 8 = j % 8 := by omega
  have index := table_index i inside (j / 8) (by omega)
  rw [getLsbD_lane _ _ below, rotl8, vqtbl1q_u8, getLsbD_ofLanes _ position, getLsbD_rotl _ (by decide) below, byte,
    bit, index, if_pos (by omega), getLsbD_lane _ _ (Nat.mod_lt _ (by decide))]
  split
  · rw [getLsbD_lane _ _ (by omega)]
    congr 1
    omega
  · rw [getLsbD_lane _ _ (by omega)]
    congr 1
    omega

/-- A lane goes through the operations as a word does. -/
theorem lane_hom (block : Fin 4) : RoundOps.Hom (ops (vld1q ROT8)) Word.ops (lane 32 · block.val) where
  add x y := by
    show lane 32 (vaddq_u32 x y) block.val = lane 32 x block.val + lane 32 y block.val
    rw [vaddq_u32, lane_ofLanes _ (by omega)]
  xor x y := by
    show lane 32 (veorq x y) block.val = lane 32 x block.val ^^^ lane 32 y block.val
    rw [lane_veorq]
  rotl16 x := lane_rotl16 x block.isLt
  rotl12 x := lane_rotl12 x block.isLt
  rotl8 x := lane_rotl8 x block.isLt
  rotl7 x := lane_rotl7 x block.isLt

/-- Interleaving halves of registers moves pairs of words. -/
theorem lane_vtrn1q_64 (x y : Register) (inside : i < 4) :
    lane 32 (vtrn1q 64 x y) i = if i < 2 then lane 32 x i else lane 32 y (i - 2) := by
  have quarter : 2 * (i / 2) + i % 2 = i := Nat.div_add_mod i 2
  have half := lane_half (vtrn1q 64 x y) (i / 2) (i % 2) (Nat.mod_lt i (by decide))
  rw [quarter, vtrn1q, lane_ofLanes _ (by omega)] at half
  rw [vtrn1q, half]
  split
  · next even =>
    have low : i < 2 := by omega
    rw [if_pos low, ← lane_half _ _ _ (Nat.mod_lt i (by decide)), quarter]
  · next odd =>
    have high : ¬i < 2 := by omega
    rw [if_neg high, ← lane_half _ _ _ (Nat.mod_lt i (by decide))]
    congr 1
    omega

theorem lane_vtrn2q_64 (x y : Register) (inside : i < 4) :
    lane 32 (vtrn2q 64 x y) i = if i < 2 then lane 32 x (i + 2) else lane 32 y i := by
  have quarter : 2 * (i / 2) + i % 2 = i := Nat.div_add_mod i 2
  have half := lane_half (vtrn2q 64 x y) (i / 2) (i % 2) (Nat.mod_lt i (by decide))
  rw [quarter, vtrn2q, lane_ofLanes _ (by omega)] at half
  rw [vtrn2q, half]
  split
  · next even =>
    have low : i < 2 := by omega
    rw [if_pos low, ← lane_half _ _ _ (Nat.mod_lt i (by decide))]
    congr 1
    omega
  · next odd =>
    have high : ¬i < 2 := by omega
    rw [if_neg high, ← lane_half _ _ _ (Nat.mod_lt i (by decide)), quarter]

/-- Vector `j` of a transpose stores lane `j` of each. -/
theorem vst1q_transpose (a b c d : Register) (j : Fin 4) :
    vst1q ((transpose a b c d).get j) =
      Bytes.le 4 (lane 32 a j).toNat ++ (Bytes.le 4 (lane 32 b j).toNat ++
        (Bytes.le 4 (lane 32 c j).toNat ++ Bytes.le 4 (lane 32 d j).toNat)) := by
  have even : ∀ x y : Register, ∀ i < 4, lane 32 (vtrn1q 32 x y) i = if i % 2 = 0 then lane 32 x i else lane 32 y (i - 1) :=
    fun x y i inside => lane_ofLanes _ (by omega)
  have odd : ∀ x y : Register, ∀ i < 4, lane 32 (vtrn2q 32 x y) i = if i % 2 = 0 then lane 32 x (i + 1) else lane 32 y i :=
    fun x y i inside => lane_ofLanes _ (by omega)
  rw [vst1q_words, transpose, get_ofFn]
  match j with
  | 0 => simp [lane_vtrn1q_64, even]
  | 1 => simp [lane_vtrn1q_64, odd]
  | 2 => simp [lane_vtrn2q_64, even]
  | 3 => simp [lane_vtrn2q_64, odd]

end Lanes

/-- Every lane starts as the state so many blocks on. -/
theorem map_broadcastState (state : Vector Word 16) (counter : Word) (block : Fin 4) :
    (broadcastState state counter).map (lane 32 · block.val) = advance (put state COUNTER counter) block.val := by
  have offset : lane 32 laneOffsets block.val = BitVec.ofNat 32 block.val := by
    rw [laneOffsets, vld1q_u32, lane_ofLanes _ (by omega)]
    match block with
    | 0 | 1 | 2 | 3 => rfl
  apply vector_ext
  intro i
  rw [← get_map, broadcastState, advance, get_put, put_put, get_put, get_put_self]
  split
  · rw [vaddq_u32, lane_ofLanes _ (by omega), vdupq_n_u32, lane_ofLanes _ (by omega), offset]
  · rw [← get_map, vdupq_n_u32, lane_ofLanes _ (by omega)]

/-- Feeding forward is adding what was broadcast. -/
theorem feedForward_eq (v : Vector Register 16) (state : Vector Word 16) (counter : Word) :
    feedForward v state counter = v.zipWith vaddq_u32 (broadcastState state counter) := by
  apply vector_ext
  intro i
  have element : (v.zipWith vaddq_u32 (broadcastState state counter)).get i =
      vaddq_u32 (v.get i) ((broadcastState state counter).get i) := Vector.getElem_zipWith i.isLt
  rw [feedForward, get_ofFn, element, broadcastState, get_put]
  by_cases here : i = COUNTER
  · rw [if_neg (not_not.mpr here), if_pos here.symm]
  · rw [if_pos here, if_neg (Ne.symm here), ← get_map]

/-- Interleaved rounds are the rounds of each group. -/
theorem interleavedRounds_eq (rot8 : Register) (v w : Vector Register 16) :
    interleavedRounds rot8 (v, w) = ((ops rot8).rounds v, (ops rot8).rounds w) := by
  have double : ∀ (schedule : List (Fin 16 × Fin 16 × Fin 16 × Fin 16)) (v w : Vector Register 16),
      schedule.foldl (fun (v, w) (a, b, c, d) =>
        ((ops rot8).quarterRound v a b c d, (ops rot8).quarterRound w a b c d)) (v, w) =
      (schedule.foldl (fun v (a, b, c, d) => (ops rot8).quarterRound v a b c d) v,
        schedule.foldl (fun v (a, b, c, d) => (ops rot8).quarterRound v a b c d) w) := by
    intro schedule
    induction schedule with
    | nil => exact fun _ _ => rfl
    | cons quarter rest ih => exact fun v w => ih _ _
  rw [interleavedRounds, RoundOps.rounds, RoundOps.rounds]
  induction List.range 10 generalizing v w with
  | nil => rfl
  | cons _ rest ih =>
      rw [List.foldl_cons, List.foldl_cons, List.foldl_cons, double, ih]
      rfl

/-- A finished group: the rounds, and what was broadcast added to them. -/
def finished (state : Vector Word 16) (counter : Word) : Vector Register 16 :=
  feedForward ((ops (vld1q ROT8)).rounds (broadcastState state counter)) state counter

/-- A lane of a finished group is a block of the stream. -/
theorem serialize_finished (state : Vector Word 16) (counter : Word) (block : Fin 4) :
    Rfc8439.serialize ((finished state counter).map (lane 32 · block.val)) =
      keystream (put state COUNTER counter) block.val := by
  have permuted : finished state counter = (ops (vld1q ROT8)).permute (broadcastState state counter) :=
    feedForward_eq _ _ _
  rw [permuted, (lane_hom block).permute, map_broadcastState, keystream, Rfc8439.block_eq]

/-- The sixteen registers of a group, one by one. -/
private theorem toList_sixteen (v : Vector Register 16) :
    v.toList = (List.range 16).map fun i => v.toList.getD i 0 := by
  apply List.ext_getElem
  · rw [Vector.length_toList, List.length_map, List.length_range]
  · intro i inside _
    rw [List.getElem_map, List.getElem_range, List.getD_eq_getElem _ _ inside]

/-- The four quarters of block `j`, as they are stored. -/
theorem blocks_stored (v : Vector Register 16) :
    (blocks v).map (fun (g0, g1, g2, g3) => vst1q g0 ++ (vst1q g1 ++ (vst1q g2 ++ vst1q g3))) =
      (List.finRange 4).map fun block => Rfc8439.serialize (v.map (lane 32 · block.val)) := by
  rw [blocks, List.map_map]
  apply List.map_congr_left
  intro block _
  have sixteen : List.range 16 = [0, 1, 2, 3, 4, 5, 6, 7, 8, 9, 10, 11, 12, 13, 14, 15] := rfl
  rw [Rfc8439.serialize, Vector.toList_map]
  conv_rhs => rw [toList_sixteen, sixteen]
  simp only [Function.comp_apply, vst1q_transpose, List.map_cons, List.map_nil, List.flatMap_cons, List.flatMap_nil,
    List.append_assoc, List.append_nil]

/-- Storing XORed registers is XORing what they store. -/
theorem xorStore_eq {bytes : Bytes} (length : bytes.length = 16) (keystream : Register) :
    xorStore bytes keystream = xorBytes bytes (vst1q keystream) := by
  rw [xorStore, vst1q_veorq, vst1q_vld1q length]

theorem stage_finished (state : Vector Word 16) (counter : Word) :
    stage (finished state counter) = (List.range 4).flatMap (keystream (put state COUNTER counter)) := by
  have indices : List.range 4 = (List.finRange 4).map Fin.val := rfl
  have quarters : stage (finished state counter) = ((blocks (finished state counter)).map
      fun (g0, g1, g2, g3) => vst1q g0 ++ (vst1q g1 ++ (vst1q g2 ++ vst1q g3))).flatten := by
    rw [stage, List.flatMap]
    simp only [List.append_assoc]
  rw [quarters, blocks_stored, indices, List.flatMap_map]
  simp only [serialize_finished]
  rfl

/-- Four vectors of a block XORed into 64 bytes. -/
private theorem xorStore_block {p : Bytes} (fits : 64 ≤ p.length) (g0 g1 g2 g3 : Register) :
    xorStore (p.take 16) g0 ++ xorStore ((p.drop 16).take 16) g1 ++ xorStore ((p.drop 32).take 16) g2 ++
      xorStore ((p.drop 48).take 16) g3 =
    xorBytes (p.take 64) (vst1q g0 ++ (vst1q g1 ++ (vst1q g2 ++ vst1q g3))) := by
  have part : ∀ offset, offset + 16 ≤ p.length → ((p.drop offset).take 16).length = 16 := by
    intro offset inside
    rw [List.length_take, List.length_drop]
    omega
  have first := part 0 (by omega)
  rw [List.drop_zero] at first
  have quarter : ∀ (data rest : Bytes) (g : Register), 16 ≤ data.length →
      xorBytes data (vst1q g ++ rest) = xorBytes (data.take 16) (vst1q g) ++ xorBytes (data.drop 16) rest := by
    intro data rest g fits
    have split := @xorBytes_split data (vst1q g) rest (by rwa [vst1q_length])
    rwa [vst1q_length] at split
  rw [xorStore_eq first, xorStore_eq (part 16 (by omega)), xorStore_eq (part 32 (by omega)),
    xorStore_eq (part 48 (by omega))]
  rw [quarter, quarter, quarter]
  · simp only [List.drop_drop, List.take_take, List.drop_take, List.append_assoc]
    rfl
  all_goals
    simp only [List.length_drop, List.length_take]
    omega

/-- Emitting a finished group XORs four blocks of the stream. -/
theorem emit_finished (state : Vector Word 16) (counter : Word) {data : Bytes} (whole : data.length = 256) :
    emit data (finished state counter) = xorStream 64 (keystream (put state COUNTER counter)) data := by
  have stored := blocks_stored (finished state counter)
  simp only [serialize_finished] at stored
  have count : (blocks (finished state counter)).length = 4 := by
    rw [blocks, List.length_map, List.length_finRange]
  have four : data.length = 64 * 4 := whole
  have emitted : emit data (finished state counter) =
      (((blocks (finished state counter)).map fun (g0, g1, g2, g3) =>
        vst1q g0 ++ (vst1q g1 ++ (vst1q g2 ++ vst1q g3))).zipIdx).flatMap fun (key, block) =>
          xorBytes ((data.drop (64 * block)).take 64) key := by
    rw [emit, List.zipIdx_map, List.flatMap_map, List.flatMap, List.flatMap]
    apply congrArg List.flatten
    apply List.map_congr_left
    intro ⟨⟨g0, g1, g2, g3⟩, block⟩ member
    have below : block < 4 := by
      rw [← count]
      exact List.snd_lt_of_mem_zipIdx member
    have fits : 64 ≤ (data.drop (block * 64)).length := by
      rw [List.length_drop, whole]
      omega
    have place : 64 * block = block * 64 := Nat.mul_comm 64 block
    show _ = xorBytes ((data.drop (64 * block)).take 64) _
    rw [place]
    exact xorStore_block fits g0 g1 g2 g3
  rw [emitted, stored, xorStream_blocks (by decide) (keystream_length _) four]
  rfl

private theorem put_counter (state : Vector Word 16) : put state COUNTER (state.get COUNTER) = state := put_get state COUNTER

/-- What the four-block loop and its tail leave. -/
theorem applyFours_eq (state : Vector Word 16) (data : Bytes) :
    applyFours state data = (advance state ((data.length + 63) / 64), xorStream 64 (keystream state) data) := by
  induction size : data.length using Nat.strong_induction_on generalizing state data with
  | _ size' ih =>
    subst size
    have group : feedForward ((ops (vld1q ROT8)).rounds (broadcastState state (state.get COUNTER))) state
        (state.get COUNTER) = finished state (state.get COUNTER) := rfl
    by_cases empty : data = []
    · rw [applyFours, dif_pos empty, empty, xorStream_nil]
      exact congrArg (·, []) (advance_zero state).symm
    · have positive := List.length_pos_iff.mpr empty
      rw [applyFours, dif_neg empty]
      simp only [group]
      split
      · next long =>
        have shorter : (data.drop 256).length < data.length := by
          rw [List.length_drop]
          omega
        have first : (data.take 256).length = 256 := by
          rw [List.length_take]
          omega
        have whole : 64 ∣ (data.take 256).length := by
          rw [first]
          exact Dvd.intro 4 rfl
        have blocks : 4 + ((data.drop 256).length + 63) / 64 = (data.length + 63) / 64 := by
          rw [List.length_drop]
          omega
        have four : put state COUNTER (state.get COUNTER + 4) = advance state 4 := rfl
        have joined := @xorStream_append 64 (keystream state) (by decide) _ whole (data.drop 256)
        rw [List.take_append_drop, first] at joined
        rw [emit_finished _ _ first, put_counter, ih _ shorter _ _ rfl, four, advance_advance, blocks, joined,
          keystream_advance]
      · next short =>
        have fits : data.length ≤ 64 * 4 := by omega
        rw [stage_finished, put_counter, xorStream_group (by decide) (keystream_length _) fits]
        rfl

/-- What a call leaves: the stream XORed in, and the counter past the blocks used. -/
theorem applyKeystream_eq (state : Vector Word 16) (data : Bytes) :
    applyKeystream state data = (advance state ((data.length + 63) / 64), xorStream 64 (keystream state) data) := by
  induction size : data.length using Nat.strong_induction_on generalizing state data with
  | _ size' ih =>
    subst size
    rw [applyKeystream]
    split
    · next long =>
      have groups : ∀ counter, feedForward ((ops (vld1q ROT8)).rounds (broadcastState state counter)) state counter =
          finished state counter := fun _ => rfl
      have shorter : (data.drop 512).length < data.length := by
        rw [List.length_drop]
        omega
      have first : (data.take 256).length = 256 := by
        rw [List.length_take]
        omega
      have second : ((data.drop 256).take 256).length = 256 := by
        rw [List.length_take, List.length_drop]
        omega
      have whole : ∀ {group : Bytes}, group.length = 256 → 64 ∣ group.length := by
        intro group length
        rw [length]
        exact Dvd.intro 4 rfl
      have blocks : 8 + ((data.drop 512).length + 63) / 64 = (data.length + 63) / 64 := by
        rw [List.length_drop]
        omega
      have four : put state COUNTER (state.get COUNTER + 4) = advance state 4 := rfl
      have eight : put state COUNTER (state.get COUNTER + 8) = advance state 8 := rfl
      have parts : xorStream 64 (keystream state) data = xorStream 64 (keystream state) (data.take 256) ++
          (xorStream 64 (keystream (advance state 4)) ((data.drop 256).take 256) ++
            xorStream 64 (keystream (advance state 8)) (data.drop 512)) := by
        have front := @xorStream_append 64 (keystream state) (by decide) (data.take 256)
          (whole first) (data.drop 256)
        have middle := @xorStream_append 64 (keystream (advance state 4)) (by decide) ((data.drop 256).take 256)
          (whole second) ((data.drop 256).drop 256)
        rw [List.take_append_drop, first, ← keystream_advance] at front
        rw [List.take_append_drop, second, ← keystream_advance, advance_advance, List.drop_drop] at middle
        rw [front]
        exact congrArg (_ ++ ·) middle
      simp only [interleavedRounds_eq, groups, emit_finished _ _ first, emit_finished _ _ second]
      rw [put_counter, ih _ shorter _ _ rfl, four, eight, advance_advance, blocks, parts, List.append_assoc]
    · exact applyFours_eq state data

/-- The NEON backend writes what the portable one writes, and leaves the same state. -/
theorem applyKeystream_eq_portable (state : Vector Word 16) (data : Bytes) :
    applyKeystream state data =
      (((ChaCha20.mk state).applyKeystream data).1.state, ((ChaCha20.mk state).applyKeystream data).2) := by
  rw [applyKeystream_eq, ChaCha20.applyKeystream_eq]

end Blindplane.Crypto.Neon
