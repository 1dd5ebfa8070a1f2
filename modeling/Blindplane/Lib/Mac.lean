import Blindplane.Lib.BlockHash

/-! # Message authentication over a block hash

The tag of RFC 2104 is a hash of a hash. A running MAC keeps the hasher of the inner message
and the outer key, and takes the message in pieces; however the message is cut and whatever
length the key has, the tag is that of the whole.
-/

namespace Blindplane.Lib

/-- A running MAC: the hasher of the inner message, and the outer key. -/
structure Mac (σ : Type) where
  inner : Hasher σ
  outerKey : Bytes

namespace Mac

variable {σ : Type} (hash : BlockHash σ) (compressBlocks : σ → Bytes → σ)

section Routines

/-- The key is hashed when it is longer than a block, and filled up with zeros to one. -/
def new (key : Bytes) : Option (Mac σ) := do
  let front ← if key.length > hash.blockLen then
      Hasher.finalize hash compressBlocks (hash.blockLen - 1) ((Hasher.new hash).update hash compressBlocks key)
    else some key
  let block := front ++ List.replicate (hash.blockLen - front.length) 0
  return { inner := (Hasher.new hash).update hash compressBlocks (block.map (· ^^^ 0x36))
           outerKey := block.map (· ^^^ 0x5c) }

/-- Absorb more of the message. -/
def update (mac : Mac σ) (data : Bytes) : Mac σ :=
  { mac with inner := mac.inner.update hash compressBlocks data }

/-- Finish and return the tag. -/
def finalize (mac : Mac σ) : Option Bytes := do
  let inner ← mac.inner.finalize hash compressBlocks (hash.blockLen - 1)
  let outer := (Hasher.new hash).update hash compressBlocks mac.outerKey
  (outer.update hash compressBlocks inner).finalize hash compressBlocks (hash.blockLen - 1)

end Routines

section Tags

/-- The key as one block. -/
def block (key : Bytes) : Bytes := List.rightpad hash.blockLen 0 (if hash.blockLen < key.length then hash.digest key else key)

/-- RFC 2104: `H(K xor opad, H(K xor ipad, text))`, where the pads repeat one byte. -/
def tag (key message : Bytes) : Bytes :=
  hash.digest ((block hash key).map (· ^^^ 0x5c) ++ hash.digest ((block hash key).map (· ^^^ 0x36) ++ message))

variable {hash compressBlocks}

/-- The two keys are the block under the two masks. -/
theorem new_eq (compresses : Hasher.Compresses hash compressBlocks) (key : Bytes) :
    new hash compressBlocks key = some
      { inner := (Hasher.new hash).update hash compressBlocks ((block hash key).map (· ^^^ 0x36))
        outerKey := (block hash key).map (· ^^^ 0x5c) } := by
  have enough : hash.blockLen ≤ hash.blockLen - 1 + 1 := by omega
  have hashed := Hasher.finalize_updates compresses [key] enough
  simp only [List.foldl_cons, List.foldl_nil, List.flatten_cons, List.flatten_nil, List.append_nil] at hashed
  simp only [new, block, List.rightpad]
  split
  · rw [hashed]
    rfl
  · rfl

theorem foldl_update (pieces : List Bytes) (mac : Mac σ) :
    pieces.foldl (update hash compressBlocks) mac =
      { mac with inner := pieces.foldl (Hasher.update hash compressBlocks) mac.inner } := by
  induction pieces generalizing mac with
  | nil => rfl
  | cons piece pieces ih =>
      rw [List.foldl_cons, ih]
      rfl

/-- Any way of cutting a message gives its tag, under a key of any length. -/
theorem finalize_updates (compresses : Hasher.Compresses hash compressBlocks) (key : Bytes) (pieces : List Bytes) :
    ((new hash compressBlocks key).bind fun mac =>
        finalize hash compressBlocks (pieces.foldl (update hash compressBlocks) mac)) =
      some (tag hash key pieces.flatten) := by
  have enough : hash.blockLen ≤ hash.blockLen - 1 + 1 := by omega
  have inner := Hasher.finalize_updates compresses ((block hash key).map (· ^^^ 0x36) :: pieces) enough
  have outer := Hasher.finalize_updates compresses
    [(block hash key).map (· ^^^ 0x5c), hash.digest ((block hash key).map (· ^^^ 0x36) ++ pieces.flatten)] enough
  simp only [List.foldl_cons, List.foldl_nil, List.flatten_cons, List.flatten_nil, List.append_nil] at inner outer
  rw [new_eq compresses, Option.bind_some, foldl_update]
  simp only [finalize, inner, Option.bind_eq_bind, Option.bind_some, outer, tag]

end Tags

end Mac

end Blindplane.Lib
