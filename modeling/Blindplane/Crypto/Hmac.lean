import Blindplane.Lib.Mac
import Blindplane.Crypto.Choice
import Blindplane.Crypto.Hkdf

/-! # HMAC over both hashes

The two MACs differ in the hash only, and so in the length of a block and of a tag. Each is
that of RFC 2104, however its message is cut, on hardware or not.
-/

namespace Blindplane.Crypto.Sha2

open Lib

section Mac512

/-- A running MAC over SHA-512. -/
abbrev HmacSha512 := Mac (State 64)

/-- Start a MAC under `key`, which may be any length. -/
def HmacSha512.new (available : Bool) (key : Bytes) : Option HmacSha512 :=
  Mac.new sha512Blocks (compress512Blocks available) key

/-- Absorb more message bytes. -/
def HmacSha512.update (available : Bool) (mac : HmacSha512) (data : Bytes) : HmacSha512 :=
  Mac.update sha512Blocks (compress512Blocks available) mac data

/-- Finish and return the tag. -/
def HmacSha512.finalize (available : Bool) (mac : HmacSha512) : Option Bytes :=
  Mac.finalize sha512Blocks (compress512Blocks available) mac

/-- One-shot MAC. -/
def HmacSha512.mac (available : Bool) (key data : Bytes) : Option Bytes := do
  let mac ← HmacSha512.new available key
  HmacSha512.finalize available (HmacSha512.update available mac data)

end Mac512

section Mac256

/-- Finish and compare against an expected tag. -/
def HmacSha256.verify (available : Bool) (mac : HmacSha256) (expected : Bytes) : Option Choice :=
  (HmacSha256.finalize available mac).map fun tag => ctEqBytes tag expected

/-- One-shot MAC. -/
def HmacSha256.mac (available : Bool) (key data : Bytes) : Option Bytes := do
  let mac ← HmacSha256.new available key
  HmacSha256.finalize available (HmacSha256.update available mac data)

/-- The MAC over SHA-256 is one of the family. -/
def HmacSha256.toMac (mac : HmacSha256) : Mac (State 32) := ⟨mac.inner, mac.outerKey⟩

theorem HmacSha256.new_toMac (available : Bool) (key : Bytes) :
    (HmacSha256.new available key).map HmacSha256.toMac = Mac.new sha256Blocks (compress256Blocks available) key := by
  have blockLen : sha256Blocks.blockLen = 64 := rfl
  have hashed : Sha256.digest available key =
      Hasher.finalize sha256Blocks (compress256Blocks available) 63
        ((Hasher.new sha256Blocks).update sha256Blocks (compress256Blocks available) key) := rfl
  simp only [HmacSha256.new, Mac.new, blockLen, hashed]
  split
  · exact Option.map_bind
  · rfl

theorem HmacSha256.foldl_toMac (available : Bool) (pieces : List Bytes) (mac : HmacSha256) :
    (pieces.foldl (HmacSha256.update available) mac).toMac =
      pieces.foldl (Mac.update sha256Blocks (compress256Blocks available)) mac.toMac := by
  rw [HmacSha256.foldl_update, Mac.foldl_update]
  rfl

theorem HmacSha256.finalize_eq_tag (available : Bool) (key : Bytes) (pieces : List Bytes) :
    ((HmacSha256.new available key).bind fun mac =>
        HmacSha256.finalize available (pieces.foldl (HmacSha256.update available) mac)) =
      some (Mac.tag sha256Blocks key pieces.flatten) := by
  rw [← Mac.finalize_updates (compresses256 available), ← HmacSha256.new_toMac, Option.bind_map]
  congr 1
  funext mac
  show Mac.finalize sha256Blocks (compress256Blocks available) (HmacSha256.toMac _) = _
  rw [HmacSha256.foldl_toMac]
  rfl

end Mac256

/-- However a message is cut and however long the key is, both MACs give the tag of RFC 2104
    over the digest of FIPS 180-4, on hardware or not; the one-shot MACs give the same tag; and
    a MAC is verified against its own tag and no other bytes. -/
theorem hmac_exact (available : Bool) (key : Bytes) (pieces : List Bytes) :
    let tag256 := Mac.tag sha256Blocks key pieces.flatten
    let tag512 := Mac.tag sha512Blocks key pieces.flatten
    (((HmacSha256.new available key).bind fun mac =>
        HmacSha256.finalize available (pieces.foldl (HmacSha256.update available) mac)) = some tag256 ∧
      HmacSha256.mac available key pieces.flatten = some tag256) ∧
    (((HmacSha512.new available key).bind fun mac =>
        HmacSha512.finalize available (pieces.foldl (HmacSha512.update available) mac)) = some tag512 ∧
      HmacSha512.mac available key pieces.flatten = some tag512) ∧
    ∀ expected, ((HmacSha256.new available key).bind fun mac =>
        (HmacSha256.verify available (pieces.foldl (HmacSha256.update available) mac) expected).map Choice.isSet) =
      some (decide (tag256 = expected)) := by
  intro tag256 tag512
  have whole : [pieces.flatten].flatten = pieces.flatten := List.append_nil _
  have cut := HmacSha256.finalize_eq_tag available key pieces
  have once256 := HmacSha256.finalize_eq_tag available key [pieces.flatten]
  have once512 := Mac.finalize_updates (compresses512 available) key [pieces.flatten]
  rw [whole] at once256 once512
  refine ⟨⟨cut, once256⟩, ⟨Mac.finalize_updates (compresses512 available) key pieces, once512⟩, fun expected => ?_⟩
  obtain ⟨mac, made, done⟩ := Option.bind_eq_some_iff.mp cut
  rw [made, Option.bind_some, HmacSha256.verify, done, Option.map_some, Option.map_some, isSet_ctEqBytes]

end Blindplane.Crypto.Sha2
