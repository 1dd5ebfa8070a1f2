import Blindplane.Crypto.Suite
import Blindplane.Lib.Blocks

/-! # HMAC and HKDF over SHA-256

A running MAC holds what its inner hash has absorbed, and its outer key. HKDF writes
its output block by block into the caller's buffer.
-/

namespace Blindplane.Crypto

open Lib

structure HmacSha256 where
  inner : Bytes
  outerKey : Bytes

variable [Primitives]

namespace HmacSha256

/-- The key as one 64-byte block: hashed when it is longer, filled up with zeros. -/
def keyBlock (key : Bytes) : Bytes :=
  let block := if key.length > 64 then (Primitives.sha256 key).toList else key
  block ++ List.replicate (64 - block.length) 0

/-- Start a MAC under `key`, which may be any length. -/
def new (key : Bytes) : HmacSha256 where
  inner := (keyBlock key).map (· ^^^ 0x36)
  outerKey := (keyBlock key).map (· ^^^ 0x5c)

omit [Primitives] in
/-- Absorb more message bytes. -/
def update (mac : HmacSha256) (data : Bytes) : HmacSha256 :=
  { mac with inner := mac.inner ++ data }

omit [Primitives] in
theorem update_update (mac : HmacSha256) (first second : Bytes) :
    (mac.update first).update second = mac.update (first ++ second) := by
  simp only [update, List.append_assoc]

/-- Finish and return the tag. -/
def finalize (mac : HmacSha256) : Vector UInt8 32 :=
  Primitives.sha256 (mac.outerKey ++ (Primitives.sha256 mac.inner).toList)

/-- One-shot MAC. -/
def mac (key data : Bytes) : Vector UInt8 32 := ((new key).update data).finalize

end HmacSha256

def hkdfExtract (salt ikm : Bytes) : Vector UInt8 32 := HmacSha256.mac salt ikm

/-- The loop of `hkdfExpand`. Every turn writes at least one byte, so the fuel of one
    turn for each byte of the buffer is never used up. -/
def expandFrom (prk : Vector UInt8 32) (info : Bytes) :
    (fuel : Nat) → (previous : Bytes) → (counter : UInt8) → (written : Nat) → (okm : Bytes) → Bytes
  | 0, _, _, _, okm => okm
  | fuel + 1, previous, counter, written, okm =>
      if written < okm.length then
        let mac := (((HmacSha256.new prk.toList).update previous).update info).update [counter]
        let block := mac.finalize.toList
        let take := min 32 (okm.length - written)
        expandFrom prk info fuel block (counter + 1) (written + take)
          (copyAt okm written (block.take take))
      else okm

theorem expandFrom_length (prk : Vector UInt8 32) (info : Bytes) (fuel : Nat) (previous : Bytes)
    (counter : UInt8) (written : Nat) (okm : Bytes) :
    (expandFrom prk info fuel previous counter written okm).length = okm.length := by
  induction fuel generalizing previous counter written okm with
  | zero => rfl
  | succ fuel ih =>
      unfold expandFrom
      split
      · next unfinished =>
        simp only [ih]
        refine copyAt_length ?_
        simp only [List.length_take, Vector.length_toList]
        omega
      · rfl

/-- Fill a buffer from a key: `false`, and the buffer as it was, when more than 255
    blocks are asked for. -/
def hkdfExpand {n : Nat} (prk : Vector UInt8 32) (info : Bytes) (okm : Vector UInt8 n) :
    Bool × Vector UInt8 n :=
  if n > 255 * 32 then (false, okm)
  else (true, ⟨(expandFrom prk info n [] 1 0 okm.toList).toArray, by
    rw [List.size_toArray, expandFrom_length, Vector.length_toList]⟩)

end Blindplane.Crypto
