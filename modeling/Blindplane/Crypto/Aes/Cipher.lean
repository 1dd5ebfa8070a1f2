import Blindplane.Crypto.ChaCha.Rounds
import Blindplane.Lib.Simd
import Blindplane.Lib.Words

/-! # AES-256 on the AES instructions

The instructions do the steps of a round in another order than FIPS 197 writes them: the
round key is added first, at the front of a round instead of at the end of the one before.
The key schedule works on little-endian words, and has the S-box only through the round
instruction, on a state whose columns are all the same.
-/

namespace Blindplane.Crypto

open Lib Simd

namespace Fips197

/-- Sixteen bytes, column by column. -/
abbrev State := Vector UInt8 16

/-- Multiply by `x` modulo `x^8 + x^4 + x^3 + x + 1`. -/
def xTimes (b : UInt8) : UInt8 := (b <<< 1) ^^^ (if b &&& 0x80 = 0 then 0 else 0x1b)

/-- The product of two bytes in the field of `2^8` elements. -/
def multiply (a b : UInt8) : UInt8 :=
  ((List.range 8).foldl (fun (product, power) i =>
    (if a.toNat.testBit i then product ^^^ power else product, xTimes power)) (0, b)).1

/-- The multiplicative inverse, and an affine transformation of its bits. -/
def sBox (b : UInt8) : UInt8 :=
  let inverse := (List.range 254).foldl (fun power _ => multiply power b) 1
  let rotated := fun k => inverse <<< k ||| inverse >>> (8 - k)
  inverse ^^^ rotated 1 ^^^ rotated 2 ^^^ rotated 3 ^^^ rotated 4 ^^^ 0x63

def subBytes (state : State) : State := state.map sBox

/-- Row `r` moves `r` columns to the left. -/
def shiftRows (state : State) : State :=
  Vector.ofFn fun i => state.toList.getD ((i.val + 4 * (i.val % 4)) % 16) 0

def mixColumns (state : State) : State :=
  Vector.ofFn fun i =>
    let s := fun k => state.toList.getD (4 * (i.val / 4) + (i.val % 4 + k) % 4) 0
    multiply 2 (s 0) ^^^ multiply 3 (s 1) ^^^ s 2 ^^^ s 3

def addRoundKey (state roundKey : State) : State := state.zipWith (· ^^^ ·) roundKey

def rotWord (word : Bytes) : Bytes := word.drop 1 ++ word.take 1

def subWord (word : Bytes) : Bytes := word.map sBox

/-- The round constant `Rcon[j]`. -/
def rcon (j : Nat) : Bytes := [xTimes^[j - 1] 1, 0, 0, 0]

/-- Word `i` of a key schedule, from the words before it. -/
def nextWord (words : List Bytes) (i : Nat) : Bytes :=
  let temp := words.getD (i - 1) []
  let temp :=
    if i % 8 = 0 then xorBytes (subWord (rotWord temp)) (rcon (i / 8))
    else if i % 8 = 4 then subWord temp
    else temp
  xorBytes (words.getD (i - 8) []) temp

/-- The words of the key schedule for a 256-bit key. -/
def keyExpansion (key : Vector UInt8 32) : List Bytes :=
  (List.range' 8 52).foldl (fun words i => words ++ [nextWord words i])
    ((List.range 8).map fun i => (key.toList.drop (4 * i)).take 4)

/-- The round key of round `r`. -/
def roundKey (words : List Bytes) (r : Nat) : State := fixed 16 ((words.drop (4 * r)).take 4).flatten

/-- AES-256 of one block. -/
def cipher (key : Vector UInt8 32) (input : State) : State :=
  let words := keyExpansion key
  let state := addRoundKey input (roundKey words 0)
  let state := (List.range 13).foldl (fun state r =>
    addRoundKey (mixColumns (shiftRows (subBytes state))) (roundKey words (r + 1))) state
  addRoundKey (shiftRows (subBytes state)) (roundKey words 14)

end Fips197

namespace Aes

/-- The bytes of a register. -/
def stateOf (r : Register) : Fips197.State := Bytes.leArray 16 r.toNat

/-- The register of these bytes. -/
def ofState (state : Fips197.State) : Register := vld1q state.toList

section Intrinsics

/-- AESE performs AddRoundKey, SubBytes and ShiftRows together. -/
def vaeseq_u8 (data key : Register) : Register :=
  ofState (Fips197.subBytes (Fips197.shiftRows (stateOf (veorq data key))))

/-- AESMC performs MixColumns. -/
def vaesmcq_u8 (data : Register) : Register := ofState (Fips197.mixColumns (stateOf data))

end Intrinsics

/-- AES-256 encryption of one block under an expanded key. -/
def encryptBlock (roundKeys : Vector Register 15) (block : Register) : Register :=
  let state := (roundKeys.toList.take 13).foldl (fun state key => vaesmcq_u8 (vaeseq_u8 state key)) block
  let state := vaeseq_u8 state (roundKeys.toList.getD 13 0)
  veorq state (roundKeys.toList.getD 14 0)

/-- Apply the AES S-box to each byte of a word using the AES instruction. -/
def subWord (word : Word) : Word :=
  let splat := vdupq_n_u32 word
  let substituted := vaeseq_u8 splat (vdupq_n_u8 0)
  lane 32 substituted 0

def RCON : List UInt8 := [0x01, 0x02, 0x04, 0x08, 0x10, 0x20, 0x40]

/-- Word `i` of the expanded key, from the words before it. -/
def nextWord (words : List Word) (i : Nat) : Word :=
  let temp := words.getD (i - 1) 0
  let temp :=
    if i % 8 = 0 then subWord (temp.rotateRight 8) ^^^ BitVec.ofNat 32 (RCON.getD (i / 8 - 1) 0).toNat
    else if i % 8 = 4 then subWord temp
    else temp
  words.getD (i - 8) 0 ^^^ temp

/-- The words of the expanded key. -/
def expandWords (key : Vector UInt8 32) : List Word :=
  (List.range' 8 52).foldl (fun words i => words ++ [nextWord words i]) ((List.range 8).map (wordAt key.toList))

/-- AES-256 key expansion: the words lie in memory as the round keys load them. -/
def expandKey (key : Vector UInt8 32) : Vector Register 15 :=
  let memory := (expandWords key).flatMap fun word => Bytes.le 4 word.toNat
  Vector.ofFn fun round => vld1q ((memory.drop (round.val * 16)).take 16)

section States

@[simp] theorem stateOf_toList (r : Register) : (stateOf r).toList = vst1q r := Bytes.leArray_toList 16 r.toNat

theorem state_ext {s t : Fips197.State} (same : s.toList = t.toList) : s = t := Vector.toList_inj.mp same

@[simp] theorem stateOf_ofState (state : Fips197.State) : stateOf (ofState state) = state := by
  apply state_ext
  rw [stateOf_toList, ofState, vst1q_vld1q state.length_toList]

@[simp] theorem ofState_stateOf (r : Register) : ofState (stateOf r) = r := by
  rw [ofState, stateOf_toList, vld1q_vst1q]

@[simp] theorem stateOf_veorq (a b : Register) : stateOf (veorq a b) = Fips197.addRoundKey (stateOf a) (stateOf b) := by
  apply state_ext
  rw [stateOf_toList, vst1q_veorq, Fips197.addRoundKey, Vector.toList_zipWith, stateOf_toList, stateOf_toList]
  rfl

/-- Bytes may be substituted before or after they move. -/
theorem subBytes_shiftRows (state : Fips197.State) :
    Fips197.subBytes (Fips197.shiftRows state) = Fips197.shiftRows (Fips197.subBytes state) := by
  apply vector_ext
  intro i
  have inside : (i.val + 4 * (i.val % 4)) % 16 < state.toList.length := by
    rw [Vector.length_toList]
    exact Nat.mod_lt _ (by decide)
  have inside' : (i.val + 4 * (i.val % 4)) % 16 < (state.toList.map Fips197.sBox).length := by
    rwa [List.length_map]
  rw [Fips197.subBytes, ← get_map, Fips197.shiftRows, get_ofFn, Fips197.shiftRows, get_ofFn, Fips197.subBytes,
    Vector.toList_map, List.getD_eq_getElem _ _ inside, List.getD_eq_getElem _ _ inside', List.getElem_map]

@[simp] theorem stateOf_vaeseq_u8 (data key : Register) :
    stateOf (vaeseq_u8 data key) =
      Fips197.shiftRows (Fips197.subBytes (Fips197.addRoundKey (stateOf data) (stateOf key))) := by
  rw [vaeseq_u8, stateOf_ofState, stateOf_veorq, subBytes_shiftRows]

@[simp] theorem stateOf_vaesmcq_u8 (data : Register) :
    stateOf (vaesmcq_u8 data) = Fips197.mixColumns (stateOf data) := by
  rw [vaesmcq_u8, stateOf_ofState]

end States

/-- Adding the round key at the end of a round or at the front of the next. -/
theorem rounds_eq (key : Nat → Register) (block : Register) (n : Nat) :
    Fips197.addRoundKey
        (stateOf ((List.range n).foldl (fun state r => vaesmcq_u8 (vaeseq_u8 state (key r))) block)) (stateOf (key n)) =
      (List.range n).foldl (fun state r => Fips197.addRoundKey
          (Fips197.mixColumns (Fips197.shiftRows (Fips197.subBytes state))) (stateOf (key (r + 1))))
        (Fips197.addRoundKey (stateOf block) (stateOf (key 0))) := by
  induction n with
  | zero => rfl
  | succ n ih =>
      rw [List.range_succ, List.foldl_append, List.foldl_append, List.foldl_cons, List.foldl_nil, List.foldl_cons,
        List.foldl_nil, ← ih, stateOf_vaesmcq_u8, stateOf_vaeseq_u8]

section KeySchedule

/-- The bytes of a word. -/
private def wordBytes (word : Word) : Bytes := Bytes.le 4 word.toNat

private theorem wordBytes_xor (a b : Word) : wordBytes (a ^^^ b) = xorBytes (wordBytes a) (wordBytes b) := by
  rw [wordBytes, BitVec.toNat_xor, le_xor, wordBytes, wordBytes]

private theorem wordBytes_wordAt {bytes : Bytes} {i : Nat} (inside : 4 * i + 4 ≤ bytes.length) :
    wordBytes (wordAt bytes i) = (bytes.drop (4 * i)).take 4 := by
  have length : ((bytes.drop (4 * i)).take 4).length = 4 := by
    rw [List.length_take, List.length_drop]
    omega
  have below := Bytes.ofLe_lt ((bytes.drop (4 * i)).take 4)
  have width : 256 ^ 4 = 2 ^ 32 := by decide
  rw [length, width] at below
  rw [wordBytes, wordAt, BitVec.toNat_ofNat, Nat.mod_eq_of_lt below]
  conv_rhs => rw [← Bytes.le_ofLe ((bytes.drop (4 * i)).take 4), length]

/-- Rotating a word to the right moves its first byte to the end. -/
private theorem wordBytes_rotateRight (word : Word) :
    wordBytes (word.rotateRight 8) = Fips197.rotWord (wordBytes word) := by
  have fits := word.isLt
  have shifted : word.toNat / 2 ^ 8 < 2 ^ 24 := by omega
  have rotated : (word.rotateRight 8).toNat = word.toNat / 2 ^ 8 + word.toNat % 2 ^ 8 * 2 ^ 24 := by
    have widths : 8 + (32 - 8 % 32) = 32 := rfl
    rw [BitVec.toNat_rotateRight, Nat.shiftRight_eq_div_pow]
    exact or_shiftLeft_mod shifted widths
  have parts := Bytes.le_add 1 3 word.toNat
  have length : (Fips197.rotWord (wordBytes word)).length = 4 := by
    rw [Fips197.rotWord, wordBytes, List.length_append, List.length_drop, List.length_take, Bytes.le_length]
    rfl
  have same : Bytes.ofLe (Fips197.rotWord (wordBytes word)) = (word.rotateRight 8).toNat := by
    rw [Fips197.rotWord, wordBytes, parts, List.drop_left' (Bytes.le_length 1 _), List.take_left' (Bytes.le_length 1 _),
      Bytes.ofLe_append, Bytes.ofLe_le, Bytes.ofLe_le, Bytes.le_length, rotated]
    norm_num
    omega
  rw [wordBytes, ← same, ← length, Bytes.le_ofLe]

/-- A state whose columns are all the same stays so when the rows move. -/
private theorem wordBytes_subWord (word : Word) : wordBytes (subWord word) = Fips197.subWord (wordBytes word) := by
  have unchanged : Fips197.addRoundKey (stateOf (vdupq_n_u32 word)) (stateOf (vdupq_n_u8 0)) = stateOf (vdupq_n_u32 word) := by
    rw [← stateOf_veorq, vdupq_n_u8_zero, veorq]
    exact congrArg stateOf BitVec.xor_zero
  have lanes : ∀ i < 4, lane 32 (vdupq_n_u32 word) i = word := fun i inside => lane_ofLanes _ (by omega)
  have first : wordBytes (subWord word) = (stateOf (vaeseq_u8 (vdupq_n_u32 word) (vdupq_n_u8 0))).toList.take 4 := by
    rw [stateOf_toList, vst1q_words, List.take_left' (Bytes.le_length 4 _)]
    rfl
  obtain ⟨b0, b1, b2, b3, bytes⟩ : ∃ b0 b1 b2 b3, wordBytes word = [b0, b1, b2, b3] := ⟨_, _, _, _, rfl⟩
  have splat : (Fips197.subBytes (stateOf (vdupq_n_u32 word))).toList =
      ([b0, b1, b2, b3] ++ ([b0, b1, b2, b3] ++ ([b0, b1, b2, b3] ++ [b0, b1, b2, b3]))).map Fips197.sBox := by
    rw [Fips197.subBytes, Vector.toList_map, stateOf_toList, vst1q_words, lanes 0 (by decide), lanes 1 (by decide),
      lanes 2 (by decide), lanes 3 (by decide), ← bytes]
    rfl
  have columns : ∀ (f : UInt8 → UInt8), ∀ i < 4,
      (([b0, b1, b2, b3] ++ ([b0, b1, b2, b3] ++ ([b0, b1, b2, b3] ++ [b0, b1, b2, b3]))).map f).getD
        ((i + 4 * (i % 4)) % 16) 0 = ([b0, b1, b2, b3].map f).getD i 0 := by
    intro f i below
    obtain rfl | rfl | rfl | rfl : i = 0 ∨ i = 1 ∨ i = 2 ∨ i = 3 := by omega
    all_goals rfl
  rw [first, stateOf_vaeseq_u8, unchanged, bytes, Fips197.shiftRows, Fips197.subWord, splat]
  apply List.ext_getElem
  · rw [List.length_take, Vector.length_toList]
    rfl
  · intro i inside inside'
    have below : i < 4 := inside'
    rw [List.getElem_take, Vector.getElem_toList, Vector.getElem_ofFn, columns _ i below,
      List.getD_eq_getElem _ _ inside']

/-- The constants of the code are those of the standard. -/
private theorem wordBytes_rcon : ∀ j < 8, 0 < j →
    wordBytes (BitVec.ofNat 32 (RCON.getD (j - 1) 0).toNat) = Fips197.rcon j := by
  decide +kernel

private theorem getD_map_wordBytes (words : List Word) {i : Nat} (inside : i < words.length) :
    (words.map wordBytes).getD i [] = wordBytes (words.getD i 0) := by
  have inside' : i < (words.map wordBytes).length := by rwa [List.length_map]
  rw [List.getD_eq_getElem _ _ inside, List.getD_eq_getElem _ _ inside', List.getElem_map]

/-- The next word of the code is that of the standard. -/
private theorem nextWord_map {words : List Word} {i : Nat} (eight : 8 ≤ i) (sixty : i < 60) (length : words.length = i) :
    Fips197.nextWord (words.map wordBytes) i = wordBytes (nextWord words i) := by
  have constant := wordBytes_rcon (i / 8) (by omega) (by omega)
  rw [Fips197.nextWord, nextWord, getD_map_wordBytes _ (by omega), getD_map_wordBytes _ (by omega), wordBytes_xor]
  apply congrArg
  split
  · rw [wordBytes_xor, wordBytes_subWord, wordBytes_rotateRight, constant]
  · split
    · rw [wordBytes_subWord]
    · rfl

/-- The words of the code are those of the standard, read little-endian. -/
theorem keyExpansion_eq (key : Vector UInt8 32) : Fips197.keyExpansion key = (expandWords key).map wordBytes := by
  have start : ((List.range 8).map fun i => (key.toList.drop (4 * i)).take 4) =
      ((List.range 8).map (wordAt key.toList)).map wordBytes := by
    rw [List.map_map]
    apply List.map_congr_left
    intro i member
    have below := List.mem_range.mp member
    have inside : 4 * i + 4 ≤ key.toList.length := by
      rw [Vector.length_toList]
      omega
    exact (wordBytes_wordAt inside).symm
  have count : ((List.range 8).map (wordAt key.toList)).length = 8 := by
    rw [List.length_map, List.length_range]
  have expand : ∀ (n : Nat) (words : List Word), words.length + n = 60 → 8 ≤ words.length →
      (List.range' words.length n).foldl (fun words i => words ++ [Fips197.nextWord words i]) (words.map wordBytes) =
        ((List.range' words.length n).foldl (fun words i => words ++ [nextWord words i]) words).map wordBytes := by
    intro n
    induction n with
    | zero => exact fun _ _ _ => rfl
    | succ n ih =>
        intro words room eight
        have next := ih (words ++ [nextWord words words.length])
        rw [List.length_append, List.length_singleton] at next
        rw [List.range'_succ, List.foldl_cons, List.foldl_cons, nextWord_map eight (by omega) rfl, ← next (by omega) (by omega),
          List.map_append, List.map_singleton]
  have whole := expand 52 ((List.range 8).map (wordAt key.toList))
  rw [count] at whole
  rw [Fips197.keyExpansion, start, whole rfl (Nat.le_refl 8), expandWords]

private theorem expandWords_length (key : Vector UInt8 32) : (expandWords key).length = 60 := by
  have grow : ∀ (indices : List Nat) (words : List Word),
      (indices.foldl (fun words i => words ++ [nextWord words i]) words).length = words.length + indices.length := by
    intro indices
    induction indices with
    | nil => exact fun _ => rfl
    | cons i rest ih =>
        intro words
        rw [List.foldl_cons, ih, List.length_append, List.length_cons, List.length_cons, List.length_nil]
        omega
  rw [expandWords, grow, List.length_map, List.length_range, List.length_range']

/-- A round key lies in memory as four words of the schedule. -/
theorem stateOf_expandKey (key : Vector UInt8 32) {r : Nat} (inside : r < 15) :
    stateOf ((expandKey key).toList.getD r 0) = Fips197.roundKey (Fips197.keyExpansion key) r := by
  have memory : (expandWords key).flatMap (fun word => Bytes.le 4 word.toNat) =
      ((expandWords key).map BitVec.toNat).flatMap (Bytes.le 4) := (List.flatMap_map _ _ _).symm
  have loaded : (((expandWords key).flatMap fun word => Bytes.le 4 word.toNat).drop (r * 16)).take 16 =
      (((expandWords key).map wordBytes).drop (4 * r) |>.take 4).flatten := by
    have offset : r * 16 = 4 * (4 * r) := by omega
    rw [memory, offset, Bytes.drop_flatMap_le, Bytes.take_flatMap_le 4 4, ← List.map_drop, ← List.map_take,
      List.flatMap_map, ← List.map_drop, ← List.map_take, List.flatMap]
    rfl
  have length : ((((expandWords key).map wordBytes).drop (4 * r)).take 4).flatten.length = 16 := by
    rw [← loaded, memory, List.length_take, List.length_drop, Bytes.flatMap_le_length, List.length_map,
      expandWords_length]
    omega
  have there : r < (expandKey key).toList.length := by rwa [Vector.length_toList]
  have element : (expandKey key).toList.getD r 0 =
      vld1q ((((expandWords key).flatMap fun word => Bytes.le 4 word.toNat).drop (r * 16)).take 16) := by
    rw [List.getD_eq_getElem _ _ there, Vector.getElem_toList]
    exact Vector.getElem_ofFn inside
  apply state_ext
  rw [element, stateOf_toList, keyExpansion_eq, Fips197.roundKey, fixed_toList length, loaded, vst1q_vld1q length]

end KeySchedule

/-- The block function is AES-256. -/
theorem stateOf_encryptBlock (key : Vector UInt8 32) (block : Register) :
    stateOf (encryptBlock (expandKey key) block) = Fips197.cipher key (stateOf block) := by
  have keys : (expandKey key).toList.take 13 = (List.range 13).map fun r => (expandKey key).toList.getD r 0 := by
    apply List.ext_getElem
    · rw [List.length_take, Vector.length_toList, List.length_map, List.length_range]
      rfl
    · intro r inside _
      have there : r < (expandKey key).toList.length := inside.trans_le (List.length_take_le' 13 _)
      rw [List.getElem_take, List.getElem_map, List.getElem_range, List.getD_eq_getElem _ _ there]
  have rounds := rounds_eq (fun r => (expandKey key).toList.getD r 0) block 13
  have later : ∀ r ∈ List.range 13, stateOf ((expandKey key).toList.getD (r + 1) 0) =
      Fips197.roundKey (Fips197.keyExpansion key) (r + 1) := by
    intro r member
    have below := List.mem_range.mp member
    exact stateOf_expandKey key (by omega)
  have spec : (List.range 13).foldl (fun state r => Fips197.addRoundKey
        (Fips197.mixColumns (Fips197.shiftRows (Fips197.subBytes state))) (stateOf ((expandKey key).toList.getD (r + 1) 0)))
        (Fips197.addRoundKey (stateOf block) (stateOf ((expandKey key).toList.getD 0 0))) =
      (List.range 13).foldl (fun state r => Fips197.addRoundKey
        (Fips197.mixColumns (Fips197.shiftRows (Fips197.subBytes state)))
          (Fips197.roundKey (Fips197.keyExpansion key) (r + 1)))
        (Fips197.addRoundKey (stateOf block) (Fips197.roundKey (Fips197.keyExpansion key) 0)) := by
    rw [stateOf_expandKey key (by decide)]
    exact List.foldl_ext _ _ _ fun state r member => by rw [later r member]
  rw [encryptBlock, keys, List.foldl_map, stateOf_veorq, stateOf_vaeseq_u8, rounds, spec,
    stateOf_expandKey key (by decide), Fips197.cipher]

end Aes

end Blindplane.Crypto
