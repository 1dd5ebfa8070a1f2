import Blindplane.Lib.BlockHash
import Blindplane.Crypto.Sha2.Sha256Arm
import Blindplane.Crypto.Sha2.Sha512Arm

/-! # Streaming SHA-256 and SHA-512

Both take their message piece by piece and compress whole blocks, on hardware where the CPU
has the instructions. The digest is that of the padded message, however it was cut and
wherever it was computed.
-/

namespace Blindplane.Crypto.Sha2

open Lib

section Dispatch

/-- Compress whole 64-byte blocks; `available` says whether the SHA-2 instructions exist on
    this CPU. -/
def compress256Blocks (available : Bool) (state : State 32) (data : Bytes) : State 32 :=
  if available then Arm256.compress state data else (chunksExact 64 data).foldl compress256Portable state

/-- Compress whole 128-byte blocks. -/
def compress512Blocks (available : Bool) (state : State 64) (data : Bytes) : State 64 :=
  if available then Arm512.compress state data else (chunksExact 128 data).foldl compress512 state

theorem compress256Blocks_eq (available : Bool) (s : State 32) {data : Bytes} (whole : 64 ∣ data.length) :
    compress256Blocks available s data = (chunks 64 data).foldl compress256Portable s := by
  cases available with
  | true => exact Arm256.compress_eq s whole
  | false => exact congrArg (List.foldl compress256Portable s) (chunksExact_of_dvd (by decide) whole)

theorem compress512Blocks_eq (available : Bool) (s : State 64) {data : Bytes} (whole : 128 ∣ data.length) :
    compress512Blocks available s data = (chunks 128 data).foldl compress512 s := by
  cases available with
  | true => exact Arm512.compress_eq s whole
  | false => exact congrArg (List.foldl compress512 s) (chunksExact_of_dvd (by decide) whole)

/-- The instructions and the portable loops agree on every state and all blocks. -/
theorem instructions_exact :
    (∀ (s : State 32) (blocks : List (Vector UInt8 64)),
      Arm256.compress s (blocks.map Vector.toList).flatten =
        blocks.foldl (fun s block => compress256Portable s block.toList) s) ∧
    ∀ (s : State 64) (blocks : List (Vector UInt8 128)),
      Arm512.compress s (blocks.map Vector.toList).flatten =
        blocks.foldl (fun s block => compress512 s block.toList) s := by
  constructor
  · intro s blocks
    rw [Arm256.compress_eq s (dvd_length_blocks blocks), chunks_blocks (by decide), List.foldl_map]
  · intro s blocks
    rw [Arm512.compress_eq s (dvd_length_blocks blocks), chunks_blocks (by decide), List.foldl_map]

end Dispatch

section Streaming

/-- The words of a digest. -/
def State.bytes {w : Nat} (s : State w) : Bytes := (s.words.map fun word => Bytes.be (w / 8) word.toNat).flatten

theorem counted256 : 0 < 8 := by decide

theorem fits256 : 8 < 64 := by decide

theorem counted512 : 0 < 16 := by decide

theorem fits512 : 16 < 128 := by decide

/-- Blocks of 64 bytes with a 64-bit length. -/
def sha256Blocks : BlockHash (State 32) where
  blockLen := 64
  lengthLen := 8
  initial := H256
  compress := compress256Portable
  output := State.bytes
  counted := counted256
  fits := fits256

/-- Blocks of 128 bytes with a 128-bit length. -/
def sha512Blocks : BlockHash (State 64) where
  blockLen := 128
  lengthLen := 16
  initial := H512
  compress := compress512
  output := State.bytes
  counted := counted512
  fits := fits512

theorem compresses256 (available : Bool) : Hasher.Compresses sha256Blocks (compress256Blocks available) :=
  fun s _ whole => compress256Blocks_eq available s whole

theorem compresses512 (available : Bool) : Hasher.Compresses sha512Blocks (compress512Blocks available) :=
  fun s _ whole => compress512Blocks_eq available s whole

namespace Sha256

def new : Hasher (State 32) := Hasher.new sha256Blocks

/-- Absorb more input. -/
def update (available : Bool) (hasher : Hasher (State 32)) (data : Bytes) : Hasher (State 32) :=
  hasher.update sha256Blocks (compress256Blocks available) data

/-- The loop of `finalize`: absorb zero bytes until 56 bytes are buffered. -/
def padZeros (available : Bool) (fuel : Nat) (hasher : Hasher (State 32)) : Option (Hasher (State 32)) :=
  Hasher.padZeros sha256Blocks (compress256Blocks available) fuel hasher

/-- Finish and return the digest. The loop ends within a block, so the fuel is never used up. -/
def finalize (available : Bool) (hasher : Hasher (State 32)) : Option Bytes :=
  hasher.finalize sha256Blocks (compress256Blocks available) 63

/-- One-shot digest. -/
def digest (available : Bool) (data : Bytes) : Option Bytes := finalize available (update available new data)

end Sha256

namespace Sha512

def new : Hasher (State 64) := Hasher.new sha512Blocks

/-- Absorb more input. -/
def update (available : Bool) (hasher : Hasher (State 64)) (data : Bytes) : Hasher (State 64) :=
  hasher.update sha512Blocks (compress512Blocks available) data

/-- The loop of `finalize`: absorb zero bytes until 112 bytes are buffered. -/
def padZeros (available : Bool) (fuel : Nat) (hasher : Hasher (State 64)) : Option (Hasher (State 64)) :=
  Hasher.padZeros sha512Blocks (compress512Blocks available) fuel hasher

/-- Finish and return the digest. -/
def finalize (available : Bool) (hasher : Hasher (State 64)) : Option Bytes :=
  hasher.finalize sha512Blocks (compress512Blocks available) 127

/-- One-shot digest. -/
def digest (available : Bool) (data : Bytes) : Option Bytes := finalize available (update available new data)

end Sha512

theorem Sha256.finalize_eq (available : Bool) (pieces : List Bytes) :
    Sha256.finalize available (pieces.foldl (Sha256.update available) Sha256.new) =
      some (sha256Blocks.digest pieces.flatten) :=
  Hasher.finalize_updates (compresses256 available) pieces (Nat.le_refl 64)

theorem Sha512.finalize_eq (available : Bool) (pieces : List Bytes) :
    Sha512.finalize available (pieces.foldl (Sha512.update available) Sha512.new) =
      some (sha512Blocks.digest pieces.flatten) :=
  Hasher.finalize_updates (compresses512 available) pieces (Nat.le_refl 128)

/-- However a message is cut, its digest is that of FIPS 180-4, on hardware or not, and the
    padding loops end from every fill level. -/
theorem finalize_exact (available : Bool) :
    (∀ pieces : List Bytes, ∃ zeros < 64, (pieces.flatten.length + 1 + zeros) % 64 = 56 ∧
      Sha256.finalize available (pieces.foldl (Sha256.update available) Sha256.new) =
        some ((chunks 64 (pieces.flatten ++ [0x80] ++ List.replicate zeros 0 ++
          Bytes.be 8 (8 * pieces.flatten.length))).foldl compress256Portable H256).bytes) ∧
    (∀ pieces : List Bytes, ∃ zeros < 128, (pieces.flatten.length + 1 + zeros) % 128 = 112 ∧
      Sha512.finalize available (pieces.foldl (Sha512.update available) Sha512.new) =
        some ((chunks 128 (pieces.flatten ++ [0x80] ++ List.replicate zeros 0 ++
          Bytes.be 16 (8 * pieces.flatten.length))).foldl compress512 H512).bytes) ∧
    (∀ h : Hasher (State 32), h.buffer.length = 64 → h.buffered < 64 → (Sha256.padZeros available 63 h).isSome) ∧
    ∀ h : Hasher (State 64), h.buffer.length = 128 → h.buffered < 128 → (Sha512.padZeros available 127 h).isSome := by
  refine ⟨?_, ?_, ?_, ?_⟩
  · intro pieces
    obtain ⟨few, landed⟩ := sha256Blocks.zeros_spec pieces.flatten.length
    exact ⟨_, few, landed, Sha256.finalize_eq available pieces⟩
  · intro pieces
    obtain ⟨few, landed⟩ := sha512Blocks.zeros_spec pieces.flatten.length
    exact ⟨_, few, landed, Sha512.finalize_eq available pieces⟩
  · intro h room short
    exact Hasher.padZeros_ends (compresses256 available) room short
  · intro h room short
    exact Hasher.padZeros_ends (compresses512 available) room short

/-- Past 56 and 112 buffered bytes the length does not fit: the loops go on into one more block. -/
theorem finalize_exact_past :
    (Sha256.padZeros true 63 (Sha256.update true Sha256.new (List.replicate 60 7))).isSome ∧
      (Sha512.padZeros true 127 (Sha512.update true Sha512.new (List.replicate 120 7))).isSome :=
  ⟨(finalize_exact true).2.2.1 _ (by decide +kernel) (by decide +kernel),
    (finalize_exact true).2.2.2 _ (by decide +kernel) (by decide +kernel)⟩

end Streaming

end Blindplane.Crypto.Sha2
