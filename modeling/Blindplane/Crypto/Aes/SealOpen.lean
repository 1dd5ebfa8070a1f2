import Blindplane.Crypto.Aes.Cipher
import Blindplane.Crypto.Aes.Ghash
import Blindplane.Crypto.Choice

/-! # AES-256-GCM

Sealing encrypts and authenticates in one pass, eight blocks at a time, then four, then
one, then what is left; opening authenticates the whole ciphertext and decrypts it in the
same strides. Counters are 32-bit words, and what a stride leaves is the stream and the
hash of SP 800-38D at the place where it stops.
-/

namespace Blindplane.Crypto

open Lib Simd

namespace Sp80038D

/-- Increment the last 32 bits of a block. -/
def inc32 (block : Bytes) : Bytes := block.take 12 ++ Bytes.be 4 ((Bytes.ofBe (block.drop 12) + 1) % 2 ^ 32)

/-- `GCTR` of a block cipher, from an initial counter block on. -/
def gctr (ciph : Bytes → Bytes) (icb x : Bytes) : Bytes := xorStream 16 (fun i => ciph (inc32^[i] icb)) x

/-- The zero bytes that make `data` a whole number of blocks. -/
def padding (data : Bytes) : Bytes := List.replicate ((16 - data.length % 16) % 16) 0

/-- The tag of a ciphertext. -/
def tag (ciph : Bytes → Bytes) (iv a c : Bytes) : Bytes :=
  let h := block (ciph (List.replicate 16 0))
  let j0 := iv ++ [0, 0, 0, 1]
  let lengths := Bytes.be 8 (8 * a.length) ++ Bytes.be 8 (8 * c.length)
  let s := ghash h 0 ((chunks 16 (a ++ padding a ++ c ++ padding c ++ lengths)).map block)
  gctr ciph j0 (bytes s)

/-- Authenticated encryption: the ciphertext and its tag. -/
def encrypt (ciph : Bytes → Bytes) (iv p a : Bytes) : Bytes × Bytes :=
  let j0 := iv ++ [0, 0, 0, 1]
  let c := gctr ciph (inc32 j0) p
  (c, tag ciph iv a c)

/-- Authenticated decryption: the plaintext, or `FAIL`. -/
def decrypt (ciph : Bytes → Bytes) (iv c a t : Bytes) : Option Bytes :=
  let j0 := iv ++ [0, 0, 0, 1]
  if t = tag ciph iv a c then some (gctr ciph (inc32 j0) c) else none

end Sp80038D

namespace Aes

/-- Build the 16-byte counter block for a 96-bit nonce. -/
def counterBlock (nonce : Vector UInt8 12) (counter : Word) : Register :=
  vld1q (nonce.toList ++ Bytes.be 4 counter.toNat)

/-- The lengths in bits. -/
def lengthBlock (aadLen ciphertextLen : Nat) : Bytes :=
  Bytes.be 8 (aadLen * 8 % 2 ^ 64) ++ Bytes.be 8 (ciphertextLen * 8 % 2 ^ 64)

/-- The blocks of a piece with the keystream from `counter` on XORed in. -/
def cipherVectors (roundKeys : Vector Register 15) (nonce : Vector UInt8 12) (counter : Word) (piece : Bytes) :
    List Register :=
  (Ghash.load piece).zipIdx.map fun (p, i) =>
    veorq p (encryptBlock roundKeys (counterBlock nonce (counter + BitVec.ofNat 32 i)))

/-- The last bytes, with one block of the keystream XORed in. -/
def cipherTail (roundKeys : Vector Register 15) (nonce : Vector UInt8 12) (counter : Word) (piece : Bytes) : Bytes :=
  xorBytes piece (vst1q (encryptBlock roundKeys (counterBlock nonce counter)))

/-- A pass over the buffer: the next counter, the hash so far, the bytes written. -/
structure Pass where
  counter : Word
  ghash : Ghash
  written : Bytes

/-- Encrypt and absorb a group of blocks. -/
def Pass.group (roundKeys : Vector Register 15) (nonce : Vector UInt8 12) (blocks : Nat)
    (absorb : Ghash → List Register → Ghash) (pass : Pass) (piece : Bytes) : Pass :=
  let c := cipherVectors roundKeys nonce pass.counter piece
  { counter := pass.counter + BitVec.ofNat 32 blocks
    ghash := absorb pass.ghash c
    written := pass.written ++ c.flatMap vst1q }

/-- Encrypt and absorb one block, by way of its bytes. -/
def absorbStored (ghash : Ghash) (c : List Register) : Ghash := ghash.absorbBlock (c.flatMap vst1q)

/-- Eight blocks at a time, then four, then one; what is left is shorter than a block. -/
def passes (roundKeys : Vector Register 15) (nonce : Vector UInt8 12) (pass : Pass) (buffer : Bytes) : Pass × Bytes :=
  let (pass, rest) := stride 128 (Pass.group roundKeys nonce 8 Ghash.absorbEightVectors) pass buffer
  let (pass, rest) := stride 64 (Pass.group roundKeys nonce 4 Ghash.absorbFourVectors) pass rest
  stride 16 (Pass.group roundKeys nonce 1 absorbStored) pass rest

/-- The tag is the digest under the mask of the first counter block. -/
def maskedTag (digest : Bytes) (tagMask : Register) : Bytes := xorBytes digest (vst1q tagMask)

/-- Encrypt the buffer with CTR and authenticate with GHASH in one pass: the tag, and the
    buffer encrypted. -/
def «seal» (key : Vector UInt8 32) (nonce : Vector UInt8 12) (associatedData buffer : Bytes) : Bytes × Bytes :=
  let roundKeys := expandKey key
  let h := encryptBlock roundKeys (vdupq_n_u8 0)
  let tagMask := encryptBlock roundKeys (counterBlock nonce 1)
  let ghash := (Ghash.new h).absorb associatedData
  let (pass, rest) := passes roundKeys nonce { counter := 2, ghash, written := [] } buffer
  let tail := cipherTail roundKeys nonce pass.counter rest
  let ghash := if rest = [] then pass.ghash else pass.ghash.absorbBlock (Ghash.zeroPadded tail)
  let ghash := ghash.absorbBlock (lengthBlock associatedData.length buffer.length)
  (maskedTag ghash.finish tagMask, pass.written ++ tail)

/-- CTR mode starting at counter 2, eight and four blocks at a time. -/
def applyCtr (roundKeys : Vector Register 15) (nonce : Vector UInt8 12) (buffer : Bytes) : Bytes :=
  let step := fun blocks (state : Word × Bytes) piece =>
    (state.1 + BitVec.ofNat 32 blocks, state.2 ++ (cipherVectors roundKeys nonce state.1 piece).flatMap vst1q)
  let (state, rest) := stride 128 (step 8) (2, []) buffer
  let (state, rest) := stride 64 (step 4) state rest
  let (state, rest) := stride 16 (step 1) state rest
  state.2 ++ cipherTail roundKeys nonce state.1 rest

/-- Verify the tag, then decrypt the buffer. -/
def «open» (key : Vector UInt8 32) (nonce : Vector UInt8 12) (associatedData buffer tag : Bytes) : Bool × Bytes :=
  let roundKeys := expandKey key
  let h := encryptBlock roundKeys (vdupq_n_u8 0)
  let tagMask := encryptBlock roundKeys (counterBlock nonce 1)
  let ghash := (Ghash.new h).absorb associatedData
  let ghash := ghash.absorb buffer
  let ghash := ghash.absorbBlock (lengthBlock associatedData.length buffer.length)
  let expected := maskedTag ghash.finish tagMask
  if ¬(ctEqBytes expected tag).isSet then (false, buffer)
  else (true, applyCtr roundKeys nonce buffer)

/-- AES-256 of 16 bytes. -/
def ciph (key : Vector UInt8 32) (block : Bytes) : Bytes := (Fips197.cipher key (fixed 16 block)).toList

theorem ciph_length (key : Vector UInt8 32) (block : Bytes) : (ciph key block).length = 16 := Vector.length_toList

/-- What a register of bytes is encrypted to. -/
theorem vst1q_encryptBlock (key : Vector UInt8 32) {bytes : Bytes} (length : bytes.length = 16) :
    vst1q (encryptBlock (expandKey key) (vld1q bytes)) = ciph key bytes := by
  have state : stateOf (vld1q bytes) = fixed 16 bytes := by
    apply state_ext
    rw [stateOf_toList, vst1q_vld1q length, fixed_toList length]
  rw [← stateOf_toList, stateOf_encryptBlock, state, ciph]

section Counters

variable (key : Vector UInt8 32) (nonce : Vector UInt8 12)

/-- A counter block as the standard has it. -/
def counterBytes (counter : Word) : Bytes := nonce.toList ++ Bytes.be 4 counter.toNat

theorem counterBytes_length (counter : Word) : (counterBytes nonce counter).length = 16 := by
  rw [counterBytes, List.length_append, Vector.length_toList, Bytes.be_length]

theorem vst1q_counterBlock (counter : Word) :
    vst1q (encryptBlock (expandKey key) (counterBlock nonce counter)) = ciph key (counterBytes nonce counter) :=
  vst1q_encryptBlock key (counterBytes_length nonce counter)

/-- Incrementing a counter block is counting on, modulo `2^32`. -/
theorem inc32_iterate (counter : Word) (i : Nat) :
    Sp80038D.inc32^[i] (counterBytes nonce counter) = counterBytes nonce (counter + BitVec.ofNat 32 i) := by
  have once : ∀ counter : Word, Sp80038D.inc32 (counterBytes nonce counter) = counterBytes nonce (counter + 1) := by
    intro counter
    have front : nonce.toList.length = 12 := nonce.length_toList
    have width : 256 ^ 4 = 2 ^ 32 := by decide
    have next : (counter + 1).toNat = (counter.toNat + 1) % 2 ^ 32 := BitVec.toNat_add counter 1
    rw [Sp80038D.inc32, counterBytes, List.take_left' front, List.drop_left' front, Bytes.ofBe_be, width,
      Nat.mod_eq_of_lt counter.isLt, counterBytes, next]
  induction i generalizing counter with
  | zero => rw [Function.iterate_zero_apply, BitVec.add_zero]
  | succ i ih =>
      have count : counter + 1 + BitVec.ofNat 32 i = counter + BitVec.ofNat 32 (i + 1) := by
        rw [BitVec.add_assoc, Nat.add_comm i 1, BitVec.ofNat_add]
        rfl
      rw [Function.iterate_succ_apply, once, ih, count]

/-- The blocks of the stream from a counter on. -/
def stream (counter : Word) (i : Nat) : Bytes := ciph key (counterBytes nonce (counter + BitVec.ofNat 32 i))

theorem stream_length (counter : Word) (i : Nat) : (stream key nonce counter i).length = 16 := ciph_length key _

theorem gctr_eq (counter : Word) (data : Bytes) :
    Sp80038D.gctr (ciph key) (counterBytes nonce counter) data = xorStream 16 (stream key nonce counter) data := by
  rw [Sp80038D.gctr]
  simp only [inc32_iterate]
  rfl

theorem stream_add (counter : Word) (blocks : Nat) :
    stream key nonce (counter + BitVec.ofNat 32 blocks) = fun i => stream key nonce counter (blocks + i) := by
  funext i
  rw [stream, stream, BitVec.add_assoc, ← BitVec.ofNat_add]

/-- A group of blocks with the stream XORed in. -/
theorem cipherVectors_eq (counter : Word) {count : Nat} {piece : Bytes} (length : piece.length = 16 * count) :
    (cipherVectors (expandKey key) nonce counter piece).flatMap vst1q = xorStream 16 (stream key nonce counter) piece := by
  obtain ⟨-, whole⟩ := chunks_whole (by decide) length
  have pieces := xorStream_chunks (by decide) (stream_length key nonce counter) piece 0
  simp only [Nat.zero_add] at pieces
  rw [← pieces, cipherVectors, Ghash.load, List.flatMap_map, List.zipIdx_map, List.flatMap_map, List.flatMap, List.flatMap]
  apply congrArg List.flatten
  apply List.map_congr_left
  rintro ⟨block, i⟩ member
  have inside : block ∈ chunks 16 piece := List.fst_mem_of_mem_zipIdx member
  show vst1q (veorq (vld1q block) _) = xorBytes block _
  rw [vst1q_veorq, vst1q_vld1q (whole block inside), vst1q_counterBlock]
  rfl

/-- The last bytes with the stream XORed in. -/
theorem cipherTail_eq (counter : Word) {piece : Bytes} (short : piece.length < 16) :
    cipherTail (expandKey key) nonce counter piece = xorStream 16 (stream key nonce counter) piece := by
  rw [cipherTail, vst1q_counterBlock, xorStream_of_le (stream_length key nonce counter 0) (Nat.le_of_lt short), stream,
    BitVec.add_zero]

end Counters

section Passes

variable {key : Vector UInt8 32} {nonce : Vector UInt8 12} {h : AdjoinRoot modulus} {start : Ghash}

/-- A pass that has encrypted and absorbed `front`. -/
structure Pass.Did (key : Vector UInt8 32) (nonce : Vector UInt8 12) (start : Ghash) (pass : Pass) (front : Bytes) :
    Prop where
  counter : pass.counter = 2 + BitVec.ofNat 32 (front.length / 16)
  written : pass.written = xorStream 16 (stream key nonce 2) front
  took : start.Took pass.ghash pass.written

theorem Pass.Did.whole {pass : Pass} {front : Bytes} (did : pass.Did key nonce start front) : 16 ∣ front.length := by
  have aligned := did.took.whole
  rwa [did.written, xorStream_length] at aligned

/-- The stream goes on behind `front`. -/
theorem Pass.Did.append {pass : Pass} {front : Bytes} (did : pass.Did key nonce start front) (back : Bytes) :
    pass.written ++ xorStream 16 (stream key nonce pass.counter) back = xorStream 16 (stream key nonce 2) (front ++ back) := by
  rw [did.written, did.counter, stream_add, xorStream_append (by decide) did.whole]

/-- Loading what was stored. -/
theorem load_flatMap (c : List Register) : Ghash.load (c.flatMap vst1q) = c := by
  induction c with
  | nil => rw [List.flatMap_nil, Ghash.load, chunks_nil, List.map_nil]
  | cons r rest ih =>
      rw [Ghash.load] at ih
      rw [List.flatMap_cons, Ghash.load, chunks_block_append (by decide) (vst1q_length r), List.map_cons, ih,
        vld1q_vst1q]

/-- A group more: whatever absorbs it must leave what absorbing its bytes leaves. -/
theorem Pass.Did.group {pass : Pass} {front piece : Bytes} (did : pass.Did key nonce start front) {blocks : Nat}
    (length : piece.length = 16 * blocks) {absorb : Ghash → List Register → Ghash}
    (absorbs : ∀ {ghash : Ghash} {front c : Bytes}, start.Took ghash front → c.length = 16 * blocks →
      start.Took (absorb ghash (Ghash.load c)) (front ++ c)) :
    (pass.group (expandKey key) nonce blocks absorb piece).Did key nonce start (front ++ piece) := by
  have c := cipherVectors_eq key nonce pass.counter length
  obtain ⟨vectors, evectors⟩ : ∃ vectors, vectors = cipherVectors (expandKey key) nonce pass.counter piece := ⟨_, rfl⟩
  rw [← evectors] at c
  have size : (vectors.flatMap vst1q).length = 16 * blocks := by
    rw [c, xorStream_length, length]
  have took := absorbs did.took size
  rw [load_flatMap] at took
  refine ⟨?_, ?_, ?_⟩
  · have aligned := did.whole
    have count : (front ++ piece).length / 16 = front.length / 16 + blocks := by
      rw [List.length_append, length]
      omega
    rw [count, BitVec.ofNat_add, ← BitVec.add_assoc, ← did.counter]
    rfl
  · rw [← did.append, ← c, evectors]
    rfl
  · rw [evectors] at took
    exact took

/-- Storing a block and absorbing its bytes. -/
theorem took_absorbStored {ghash : Ghash} {front c : Bytes} (took : start.Took ghash front) (length : c.length = 16) :
    start.Took (absorbStored ghash (Ghash.load c)) (front ++ c) := by
  obtain ⟨stored, -⟩ := @Ghash.map_load 1 c length
  rw [absorbStored, List.flatMap, stored, flatten_chunks (by decide)]
  exact took.one length

/-- Every stride keeps to the stream and the hash. -/
theorem passes_did (keyed : start.Keyed h) (buffer : Bytes) :
    ∃ front, (passes (expandKey key) nonce { counter := 2, ghash := start, written := [] } buffer).1.Did key nonce start
        front ∧
      front ++ (passes (expandKey key) nonce { counter := 2, ghash := start, written := [] } buffer).2 = buffer ∧
      (passes (expandKey key) nonce { counter := 2, ghash := start, written := [] } buffer).2.length < 16 := by
  have begins : (Pass.mk 2 start []).Did key nonce start [] :=
    ⟨rfl, rfl, Nat.dvd_zero 16, by rw [chunks_nil, List.foldl_nil]⟩
  have eights := fun (pass : Pass) front piece (did : pass.Did key nonce start front) (length : piece.length = 128) =>
    @Pass.Did.group key nonce start pass front piece did 8 length _ fun took length => took.eight keyed length
  have fours := fun (pass : Pass) front piece (did : pass.Did key nonce start front) (length : piece.length = 64) =>
    @Pass.Did.group key nonce start pass front piece did 4 length _ fun took length => took.four keyed length
  have ones := fun (pass : Pass) front piece (did : pass.Did key nonce start front) (length : piece.length = 16) =>
    @Pass.Did.group key nonce start pass front piece did 1 length _ took_absorbStored
  obtain ⟨first, did, wholeFirst, -⟩ := stride_invariant (by decide) eights begins buffer
  obtain ⟨second, did, wholeSecond, -⟩ := stride_invariant (by decide) fours did _
  obtain ⟨third, did, wholeThird, short⟩ := stride_invariant (by decide) ones did _
  refine ⟨_, did, ?_, short⟩
  rw [List.nil_append, List.append_assoc, List.append_assoc, passes, wholeThird, wholeSecond, wholeFirst]

end Passes

section Digest

/-- The blocks of padded data are its pieces, padded. -/
theorem chunks_padding (data : Bytes) :
    chunks 16 (data ++ Sp80038D.padding data) = (chunks 16 data).map Ghash.zeroPadded := by
  induction length : data.length using Nat.strong_induction_on generalizing data with
  | _ length' ih =>
    subst length
    by_cases empty : data = []
    · rw [empty, chunks_nil]
      exact chunks_nil 16
    · have some := List.length_pos_iff.mpr empty
      rcases Nat.lt_or_ge data.length 16 with short | long
      · have zeros : (16 - data.length % 16) % 16 = 16 - data.length := by omega
        have padded : data ++ Sp80038D.padding data = Ghash.zeroPadded data := by
          rw [Sp80038D.padding, zeros, Ghash.zeroPadded, copyAt, List.take_zero, List.nil_append, Nat.zero_add,
            List.drop_replicate]
        have whole : (data ++ Sp80038D.padding data).length ≤ 16 := by
          rw [List.length_append, Sp80038D.padding, List.length_replicate]
          omega
        rw [chunks_of_le (List.append_ne_nil_of_left_ne_nil empty _) whole, chunks_of_le empty (Nat.le_of_lt short),
          padded, List.map_singleton]
      · have first : (data.take 16).length = 16 := by
          rw [List.length_take, Nat.min_eq_left long]
        have shorter : (data.drop 16).length < data.length := by
          rw [List.length_drop]
          omega
        have same : Sp80038D.padding data = Sp80038D.padding (data.drop 16) := by
          have mod : data.length % 16 = (data.length - 16) % 16 := by omega
          rw [Sp80038D.padding, Sp80038D.padding, List.length_drop, mod]
        calc chunks 16 (data ++ Sp80038D.padding data)
            = chunks 16 (data.take 16 ++ (data.drop 16 ++ Sp80038D.padding (data.drop 16))) := by
              rw [← List.append_assoc, List.take_append_drop, same]
          _ = data.take 16 :: chunks 16 (data.drop 16 ++ Sp80038D.padding (data.drop 16)) :=
              chunks_block_append (by decide) first _
          _ = data.take 16 :: (chunks 16 (data.drop 16)).map Ghash.zeroPadded := by rw [ih _ shorter _ rfl]
          _ = (chunks 16 data).map Ghash.zeroPadded := by
              rw [chunks_of_ne_nil (by decide) empty, List.map_cons, Ghash.zeroPadded_of_whole first]

theorem dvd_append_padding (data : Bytes) : 16 ∣ (data ++ Sp80038D.padding data).length := by
  rw [List.length_append, Sp80038D.padding, List.length_replicate]
  omega

/-- The hash key is the zero block, encrypted. -/
theorem new_keyed_hash (key : Vector UInt8 32) :
    (Ghash.new (encryptBlock (expandKey key) (vdupq_n_u8 0))).Keyed
      (classOf (Sp80038D.block (ciph key (List.replicate 16 0))).reverse) := by
  have zero : vdupq_n_u8 0 = vld1q (List.replicate 16 0) := vdupq_n_u8_zero.trans rfl
  have hash : encryptBlock (expandKey key) (vdupq_n_u8 0) = vld1q (ciph key (List.replicate 16 0)) := by
    rw [← vst1q_encryptBlock key List.length_replicate, vld1q_vst1q, zero]
  rw [hash, ← reflect_load (ciph_length key _)]
  exact Ghash.new_keyed _

/-- The digest of both sides: associated data, ciphertext and their lengths. -/
theorem finish_digest (key : Vector UInt8 32) (aad c : Bytes) {lengths : Bytes} (length : lengths.length = 16) :
    (((chunks 16 c).foldl Ghash.absorbPadded
        ((Ghash.new (encryptBlock (expandKey key) (vdupq_n_u8 0))).absorb aad)).absorbBlock lengths).finish =
      Sp80038D.bytes (Sp80038D.ghash (Sp80038D.block (ciph key (List.replicate 16 0))) 0
        ((chunks 16 (aad ++ Sp80038D.padding aad ++ c ++ Sp80038D.padding c ++ lengths)).map Sp80038D.block)) := by
  have keyed := new_keyed_hash key
  obtain ⟨start, estart⟩ : ∃ start, start = Ghash.new (encryptBlock (expandKey key) (vdupq_n_u8 0)) := ⟨_, rfl⟩
  have zero : start.acc.reverse = 0 := by
    rw [estart]
    exact reverse_zero
  rw [← estart] at keyed ⊢
  have nonempty : lengths ≠ [] := by
    apply List.ne_nil_of_length_pos
    omega
  have pieces : chunks 16 (aad ++ Sp80038D.padding aad ++ c ++ Sp80038D.padding c ++ lengths) =
      chunks 16 (aad ++ Sp80038D.padding aad) ++ (chunks 16 (c ++ Sp80038D.padding c) ++ [lengths]) := by
    rw [List.append_assoc, List.append_assoc, ← List.append_assoc c, chunks_append (by decide) (dvd_append_padding aad),
      chunks_append (by decide) (dvd_append_padding c), chunks_of_le nonempty (Nat.le_of_eq length)]
  have whole : ∀ block ∈ chunks 16 (aad ++ Sp80038D.padding aad ++ c ++ Sp80038D.padding c ++ lengths),
      block.length = 16 := by
    obtain ⟨m, hm⟩ := dvd_append_padding aad
    obtain ⟨n, hn⟩ := dvd_append_padding c
    intro block member
    rw [pieces, List.mem_append, List.mem_append, List.mem_singleton] at member
    rcases member with first | second | rfl
    · exact (chunks_whole (by decide) hm).2 block first
    · exact (chunks_whole (by decide) hn).2 block second
    · exact length
  have folded : ((chunks 16 c).foldl Ghash.absorbPadded (start.absorb aad)).absorbBlock lengths =
      (chunks 16 (aad ++ Sp80038D.padding aad ++ c ++ Sp80038D.padding c ++ lengths)).foldl Ghash.absorbBlock start := by
    rw [Ghash.absorb_eq keyed, pieces, List.foldl_append, List.foldl_append, List.foldl_cons, List.foldl_nil,
      chunks_padding, chunks_padding, List.foldl_map, List.foldl_map]
    rfl
  rw [folded]
  apply Ghash.finish_eq
  rw [Ghash.foldl_absorbBlock_eq keyed whole, zero]

theorem lengthBlock_length (a b : Nat) : (lengthBlock a b).length = 16 := by
  rw [lengthBlock, List.length_append, Bytes.be_length, Bytes.be_length]

theorem lengthBlock_eq (a b : Nat) : lengthBlock a b = Bytes.be 8 (8 * a) ++ Bytes.be 8 (8 * b) := by
  have width : 2 ^ 64 = 256 ^ 8 := by norm_num
  rw [lengthBlock, width, Bytes.be_mod, Bytes.be_mod, Nat.mul_comm a, Nat.mul_comm b]

/-- The digest under the mask is the tag of the standard. -/
theorem maskedTag_eq (key : Vector UInt8 32) (nonce : Vector UInt8 12) (aad c : Bytes) :
    maskedTag (((chunks 16 c).foldl Ghash.absorbPadded
        ((Ghash.new (encryptBlock (expandKey key) (vdupq_n_u8 0))).absorb aad)).absorbBlock
          (lengthBlock aad.length c.length)).finish (encryptBlock (expandKey key) (counterBlock nonce 1)) =
      Sp80038D.tag (ciph key) nonce.toList aad c := by
  have first : counterBytes nonce 1 = nonce.toList ++ [0, 0, 0, 1] := rfl
  have block : ∀ Y, (Sp80038D.bytes Y).length ≤ 16 := fun Y => Nat.le_of_eq (Bytes.be_length 16 _)
  rw [maskedTag, vst1q_counterBlock, finish_digest key aad c (lengthBlock_length _ _), lengthBlock_eq, Sp80038D.tag,
    ← first, gctr_eq, xorStream_of_le (stream_length key nonce 1 0) (block _), stream, BitVec.add_zero]

end Digest

section Streams

variable {key : Vector UInt8 32} {nonce : Vector UInt8 12}

/-- The ciphertext of the standard. -/
theorem encrypt_eq (key : Vector UInt8 32) (nonce : Vector UInt8 12) (data aad : Bytes) :
    Sp80038D.encrypt (ciph key) nonce.toList data aad =
      (xorStream 16 (stream key nonce 2) data,
        Sp80038D.tag (ciph key) nonce.toList aad (xorStream 16 (stream key nonce 2) data)) := by
  have first : Sp80038D.inc32 (nonce.toList ++ [0, 0, 0, 1]) = counterBytes nonce 2 := inc32_iterate nonce 1 1
  rw [Sp80038D.encrypt, first, gctr_eq]

/-- Counter mode that has gone over `front`. -/
structure Went (key : Vector UInt8 32) (nonce : Vector UInt8 12) (state : Word × Bytes) (front : Bytes) : Prop where
  whole : 16 ∣ front.length
  counter : state.1 = 2 + BitVec.ofNat 32 (front.length / 16)
  written : state.2 = xorStream 16 (stream key nonce 2) front

theorem Went.append {state : Word × Bytes} {front : Bytes} (went : Went key nonce state front) (back : Bytes) :
    state.2 ++ xorStream 16 (stream key nonce state.1) back = xorStream 16 (stream key nonce 2) (front ++ back) := by
  rw [went.written, went.counter, stream_add, xorStream_append (by decide) went.whole]

theorem Went.group {state : Word × Bytes} {front piece : Bytes} (went : Went key nonce state front) {blocks : Nat}
    (length : piece.length = 16 * blocks) :
    Went key nonce (state.1 + BitVec.ofNat 32 blocks,
      state.2 ++ (cipherVectors (expandKey key) nonce state.1 piece).flatMap vst1q) (front ++ piece) := by
  have aligned := went.whole
  have count : (front ++ piece).length / 16 = front.length / 16 + blocks := by
    rw [List.length_append, length]
    omega
  refine ⟨?_, ?_, ?_⟩
  · rw [List.length_append, length]
    exact Nat.dvd_add aligned (Nat.dvd_mul_right 16 blocks)
  · rw [count, BitVec.ofNat_add, ← BitVec.add_assoc, ← went.counter]
  · rw [cipherVectors_eq key nonce state.1 length, went.append]

theorem Went.finish {state : Word × Bytes} {front rest : Bytes} (went : Went key nonce state front)
    (short : rest.length < 16) :
    state.2 ++ cipherTail (expandKey key) nonce state.1 rest = xorStream 16 (stream key nonce 2) (front ++ rest) := by
  rw [cipherTail_eq key nonce state.1 short, went.append]

/-- Counter mode in strides. -/
theorem applyCtr_eq (key : Vector UInt8 32) (nonce : Vector UInt8 12) (buffer : Bytes) :
    applyCtr (expandKey key) nonce buffer = xorStream 16 (stream key nonce 2) buffer := by
  have begins : Went key nonce (2, []) [] := ⟨Nat.dvd_zero 16, rfl, rfl⟩
  have eights := fun (state : Word × Bytes) front piece (went : Went key nonce state front)
    (length : piece.length = 128) => @Went.group key nonce state front piece went 8 length
  have fours := fun (state : Word × Bytes) front piece (went : Went key nonce state front)
    (length : piece.length = 64) => @Went.group key nonce state front piece went 4 length
  have ones := fun (state : Word × Bytes) front piece (went : Went key nonce state front)
    (length : piece.length = 16) => @Went.group key nonce state front piece went 1 length
  obtain ⟨first, went, wholeFirst, -⟩ := stride_invariant (by decide) eights begins buffer
  obtain ⟨second, went, wholeSecond, -⟩ := stride_invariant (by decide) fours went _
  obtain ⟨third, went, wholeThird, short⟩ := stride_invariant (by decide) ones went _
  have all := went.finish short
  rw [List.nil_append, List.append_assoc, List.append_assoc, wholeThird, wholeSecond, wholeFirst] at all
  exact all

end Streams

/-- Sealing is authenticated encryption. -/
theorem seal_eq (key : Vector UInt8 32) (nonce : Vector UInt8 12) (aad buffer : Bytes) :
    «seal» key nonce aad buffer =
      ((Sp80038D.encrypt (ciph key) nonce.toList buffer aad).2, (Sp80038D.encrypt (ciph key) nonce.toList buffer aad).1) := by
  obtain ⟨ghash, eghash⟩ : ∃ ghash, ghash = (Ghash.new (encryptBlock (expandKey key) (vdupq_n_u8 0))).absorb aad :=
    ⟨_, rfl⟩
  have keyed := Ghash.absorb_keyed (new_keyed_hash key) aad
  rw [← eghash] at keyed
  obtain ⟨front, did, whole, short⟩ := @passes_did key nonce _ _ keyed buffer
  obtain ⟨result, eresult⟩ :
      ∃ result, result = passes (expandKey key) nonce { counter := 2, ghash, written := [] } buffer := ⟨_, rfl⟩
  rw [← eresult] at did whole short
  have tail := cipherTail_eq key nonce result.1.counter short
  have c : result.1.written ++ cipherTail (expandKey key) nonce result.1.counter result.2 =
      xorStream 16 (stream key nonce 2) buffer := by
    rw [tail, did.append, whole]
  have none : result.2 = [] ↔ cipherTail (expandKey key) nonce result.1.counter result.2 = [] := by
    rw [← List.length_eq_zero_iff, ← List.length_eq_zero_iff, tail, xorStream_length]
  have few : (cipherTail (expandKey key) nonce result.1.counter result.2).length < 16 := by
    rwa [tail, xorStream_length]
  have hashed := did.took.tail few
  rw [c] at hashed
  have size : buffer.length = (xorStream 16 (stream key nonce 2) buffer).length := (xorStream_length buffer).symm
  rw [encrypt_eq, «seal»]
  simp only [← eghash, ← eresult, none, hashed, c]
  rw [size, eghash, maskedTag_eq]

/-- Opening is authenticated decryption. -/
theorem open_eq (key : Vector UInt8 32) (nonce : Vector UInt8 12) (aad buffer tag : Bytes) :
    «open» key nonce aad buffer tag =
      match Sp80038D.decrypt (ciph key) nonce.toList buffer aad tag with
      | some plaintext => (true, plaintext)
      | none => (false, buffer) := by
  have first : Sp80038D.inc32 (nonce.toList ++ [0, 0, 0, 1]) = counterBytes nonce 2 := inc32_iterate nonce 1 1
  have keyed := Ghash.absorb_keyed (new_keyed_hash key) aad
  rw [«open»]
  simp only [Ghash.absorb_eq keyed, maskedTag_eq, isSet_ctEqBytes, decide_eq_true_eq, applyCtr_eq, Sp80038D.decrypt,
    first, gctr_eq]
  by_cases right : tag = Sp80038D.tag (ciph key) nonce.toList aad buffer
  · rw [if_neg (not_not.mpr right.symm), if_pos right]
  · rw [if_pos (Ne.symm right), if_neg right]

/-- Sealing on AArch64 is SP 800-38D over AES-256; opening what was sealed gives the buffer
    back, and with any other tag it fails. Whatever the hash has absorbed, absorbing data in
    groups is absorbing its zero-padded blocks one at a time. -/
theorem gcm_eq_sp80038D (key : Vector UInt8 32) (nonce : Vector UInt8 12) (aad buffer : Bytes) :
    «seal» key nonce aad buffer =
        ((Sp80038D.encrypt (ciph key) nonce.toList buffer aad).2,
          (Sp80038D.encrypt (ciph key) nonce.toList buffer aad).1) ∧
      «open» key nonce aad («seal» key nonce aad buffer).2 («seal» key nonce aad buffer).1 = (true, buffer) ∧
      (∀ tag, tag ≠ («seal» key nonce aad buffer).1 →
        («open» key nonce aad («seal» key nonce aad buffer).2 tag).1 = false) ∧
      ∀ (hBlock acc : Register) (data : Bytes),
        ({ Ghash.new hBlock with acc } : Ghash).absorb data =
          (chunks 16 data).foldl (fun ghash block => ghash.absorbBlock (Ghash.zeroPadded block))
            { Ghash.new hBlock with acc } := by
  have opens : ∀ t, «open» key nonce aad («seal» key nonce aad buffer).2 t =
      if t = («seal» key nonce aad buffer).1 then (true, buffer) else (false, («seal» key nonce aad buffer).2) := by
    intro t
    have first : Sp80038D.inc32 (nonce.toList ++ [0, 0, 0, 1]) = counterBytes nonce 2 := inc32_iterate nonce 1 1
    rw [open_eq, seal_eq, encrypt_eq, Sp80038D.decrypt, first, gctr_eq, xorStream_xorStream]
    by_cases right : t = Sp80038D.tag (ciph key) nonce.toList aad (xorStream 16 (stream key nonce 2) buffer)
    · rw [if_pos right, if_pos right]
    · rw [if_neg right, if_neg right]
  refine ⟨seal_eq key nonce aad buffer, ?_, ?_, ?_⟩
  · rw [opens, if_pos rfl]
  · intro t wrong
    rw [opens, if_neg wrong]
  · intro hBlock acc data
    have keyed : ({ Ghash.new hBlock with acc } : Ghash).Keyed (classOf (reflect hBlock)) :=
      (Ghash.new_keyed hBlock).of_powers rfl
    exact Ghash.absorb_eq keyed data

end Aes

end Blindplane.Crypto
