import Blindplane.Crypto.Kdf
import Blindplane.Crypto.Sha2.Hash

/-! # HMAC and HKDF as RFC 2104 and RFC 5869 have them

The MAC over the streaming hash is the MAC over whole messages, and the loop of
`hkdfExpand` writes the front of one byte stream, whatever length is asked for.
-/

namespace Blindplane.Crypto

open Lib

namespace Sha2

/-- A running MAC as it is kept: the hash of the inner message so far, and the outer key. -/
structure HmacSha256 where
  inner : Hasher (State 32)
  outerKey : Bytes

namespace HmacSha256

def new (available : Bool) (key : Bytes) : Option HmacSha256 := do
  let front ← if key.length > 64 then Sha256.digest available key else some key
  let block := front ++ List.replicate (64 - front.length) 0
  return { inner := Sha256.update available Sha256.new (block.map (· ^^^ 0x36))
           outerKey := block.map (· ^^^ 0x5c) }

def update (available : Bool) (mac : HmacSha256) (data : Bytes) : HmacSha256 :=
  { mac with inner := Sha256.update available mac.inner data }

def finalize (available : Bool) (mac : HmacSha256) : Option Bytes := do
  let inner ← Sha256.finalize available mac.inner
  let outer := Sha256.update available Sha256.new mac.outerKey
  Sha256.finalize available (Sha256.update available outer inner)

theorem foldl_update (available : Bool) (pieces : List Bytes) (mac : HmacSha256) :
    pieces.foldl (update available) mac =
      { mac with inner := pieces.foldl (Sha256.update available) mac.inner } := by
  induction pieces generalizing mac with
  | nil => rfl
  | cons piece pieces ih =>
      rw [List.foldl_cons, ih]
      rfl

variable [Primitives]

/-- The key is hashed when it is longer than a block, and never fails to be. -/
theorem new_eq (real : ∀ message, (Primitives.sha256 message).toList = sha256Blocks.digest message)
    (available : Bool) (key : Bytes) :
    new available key = some
      { inner := Sha256.update available Sha256.new (Crypto.HmacSha256.new key).inner
        outerKey := (Crypto.HmacSha256.new key).outerKey } := by
  have hashed : Sha256.digest available key = some (sha256Blocks.digest key) := by
    simpa [Sha256.digest] using Sha256.finalize_eq available [key]
  simp only [new, Crypto.HmacSha256.new, Crypto.HmacSha256.keyBlock, real]
  split
  · rw [hashed]
    rfl
  · rfl

/-- However a message is cut, its tag is the one of the whole message. -/
theorem finalize_updates (real : ∀ message, (Primitives.sha256 message).toList = sha256Blocks.digest message)
    (available : Bool) (key : Bytes) (pieces : List Bytes) :
    ((new available key).bind fun mac => finalize available (pieces.foldl (update available) mac)) =
      some (Crypto.HmacSha256.mac key pieces.flatten).toList := by
  have inner := Sha256.finalize_eq available ((Crypto.HmacSha256.new key).inner :: pieces)
  have outer := Sha256.finalize_eq available
    [(Crypto.HmacSha256.new key).outerKey, sha256Blocks.digest ((Crypto.HmacSha256.new key).inner ++ pieces.flatten)]
  simp only [List.foldl_cons, List.foldl_nil, List.flatten_cons, List.flatten_nil, List.append_nil] at inner outer
  rw [new_eq real, Option.bind_some, foldl_update]
  simp only [finalize, inner, Option.bind_eq_bind, Option.bind_some, outer, Crypto.HmacSha256.mac,
    Crypto.HmacSha256.finalize, Crypto.HmacSha256.update, real]

end HmacSha256

end Sha2

variable [Primitives]

section Stream

/-- RFC 2104: the hash of the outer key and the hash of the inner key and the message. The
    key, or its hash when it is longer than a block, is filled up with zeros to a block, and
    `ipad` and `opad` are blocks of one byte. -/
def hmac (key message : Bytes) : Bytes :=
  let block := List.rightpad 64 0 (if 64 < key.length then (Primitives.sha256 key).toList else key)
  let ipad := List.replicate 64 0x36
  let opad := List.replicate 64 0x5c
  let inner := Primitives.sha256 (List.zipWith (· ^^^ ·) block ipad ++ message)
  (Primitives.sha256 (List.zipWith (· ^^^ ·) block opad ++ inner.toList)).toList

/-- The blocks of RFC 5869: `T 0` is empty, and each later one is the MAC of the one before
    it, the info string and its own number. -/
def T (prk : Vector UInt8 32) (info : Bytes) : Nat → Bytes
  | 0 => []
  | i + 1 => hmac prk.toList (T prk info i ++ info ++ [UInt8.ofNat (i + 1)])

/-- `T 1 ‖ ... ‖ T count`. -/
def stream (prk : Vector UInt8 32) (info : Bytes) : Nat → Bytes
  | 0 => []
  | count + 1 => stream prk info count ++ T prk info (count + 1)

omit [Primitives] in
theorem zipWith_constant (list : Bytes) (mask : UInt8) :
    List.zipWith (· ^^^ ·) list (List.replicate list.length mask) = list.map (· ^^^ mask) := by
  induction list with
  | nil => rfl
  | cons byte rest ih => simp [List.replicate_succ, ih]

theorem length_keyBlock (key : Bytes) : (HmacSha256.keyBlock key).length = 64 := by
  simp only [HmacSha256.keyBlock, List.length_append, List.length_replicate]
  split
  · simp
  · omega

theorem mac_eq_hmac (key message : Bytes) : (HmacSha256.mac key message).toList = hmac key message := by
  have masked : ∀ mask, List.zipWith (· ^^^ ·) (HmacSha256.keyBlock key) (List.replicate 64 mask) =
      (HmacSha256.keyBlock key).map (· ^^^ mask) := by
    intro mask
    rw [← length_keyBlock key, zipWith_constant]
  simp only [HmacSha256.mac, HmacSha256.finalize, HmacSha256.update, HmacSha256.new, ← masked]
  rfl

theorem length_T (prk : Vector UInt8 32) (info : Bytes) (i : Nat) : (T prk info (i + 1)).length = 32 := by
  simp [T, hmac]

@[simp] theorem length_stream (prk : Vector UInt8 32) (info : Bytes) (count : Nat) :
    (stream prk info count).length = 32 * count := by
  induction count with
  | zero => rfl
  | succ count ih => simp [stream, ih, length_T, Nat.mul_succ]

/-- Later blocks do not change what is in front of them. -/
theorem take_stream (prk : Vector UInt8 32) (info : Bytes) {n count : Nat} (enough : n ≤ 32 * count) (more : Nat) :
    (stream prk info (count + more)).take n = (stream prk info count).take n := by
  induction more with
  | zero => rfl
  | succ more ih =>
      have before : n ≤ (stream prk info (count + more)).length := by
        rw [length_stream]
        omega
      rw [← Nat.add_assoc, stream, List.take_append_of_le_length before, ih]

end Stream

section Expand

/-- The loop of `expandFrom` with a record of the counters that it has put into a block. -/
def expandLogged (prk : Vector UInt8 32) (info : Bytes) :
    (fuel : Nat) → (previous : Bytes) → (counter : UInt8) → (written : Nat) → (okm : Bytes) → Bytes × List UInt8
  | 0, _, _, _, okm => (okm, [])
  | fuel + 1, previous, counter, written, okm =>
      if written < okm.length then
        let mac := (((HmacSha256.new prk.toList).update previous).update info).update [counter]
        let block := mac.finalize.toList
        let take := min 32 (okm.length - written)
        let (filled, later) := expandLogged prk info fuel block (counter + 1) (written + take)
          (copyAt okm written (block.take take))
        (filled, counter :: later)
      else (okm, [])

/-- The counters that `hkdfExpand` uses for `n` bytes. -/
def countersUsed (prk : Vector UInt8 32) (info : Bytes) {n : Nat} (okm : Vector UInt8 n) : List UInt8 :=
  (expandLogged prk info n [] 1 0 okm.toList).2

theorem expandLogged_fst (prk : Vector UInt8 32) (info : Bytes) (fuel : Nat) (previous : Bytes) (counter : UInt8)
    (written : Nat) (okm : Bytes) :
    (expandLogged prk info fuel previous counter written okm).1 = expandFrom prk info fuel previous counter written okm := by
  induction fuel generalizing previous counter written okm with
  | zero => rfl
  | succ fuel ih =>
      rw [expandLogged, expandFrom]
      split
      · exact ih ..
      · rfl

/-- One block of the loop. -/
theorem block_eq (prk : Vector UInt8 32) (info : Bytes) (count : Nat) :
    ((((HmacSha256.new prk.toList).update (T prk info count)).update info).update
      [UInt8.ofNat (count + 1)]).finalize.toList = T prk info (count + 1) := by
  rw [HmacSha256.update_update, HmacSha256.update_update, ← List.append_assoc, T, ← mac_eq_hmac]
  rfl

/-- A full buffer holds the front of the stream, and no blocks remain. -/
theorem filled (prk : Vector UInt8 32) (info : Bytes) {count : Nat} {okm : Bytes} (full : okm.length ≤ 32 * count)
    (front : okm = (stream prk info count).take okm.length) :
    (okm, []) = ((stream prk info ((okm.length + 31) / 32)).take okm.length,
      (List.range' (count + 1) ((okm.length + 31) / 32 - count)).map UInt8.ofNat) := by
  have none : (okm.length + 31) / 32 - count = 0 := by omega
  have fewest : okm.length ≤ 32 * ((okm.length + 31) / 32) := by omega
  obtain ⟨more, rfl⟩ : ∃ more, count = (okm.length + 31) / 32 + more := Nat.exists_eq_add_of_le (by omega)
  rw [take_stream prk info fewest] at front
  rw [none, ← front]
  rfl

/-- After `count` turns the buffer holds the front of the stream up to where it is written,
    and the rest of the loop fills it up, one block for each 32 bytes that remain. -/
theorem expandLogged_eq (prk : Vector UInt8 32) (info : Bytes) (fuel count written : Nat) (okm : Bytes)
    (enough : okm.length ≤ written + fuel) (reached : written = min (32 * count) okm.length)
    (front : okm.take written = (stream prk info count).take written) :
    expandLogged prk info fuel (T prk info count) (UInt8.ofNat (count + 1)) written okm =
      ((stream prk info ((okm.length + 31) / 32)).take okm.length,
        (List.range' (count + 1) ((okm.length + 31) / 32 - count)).map UInt8.ofNat) := by
  induction fuel generalizing count written okm with
  | zero =>
      have all : written = okm.length := by omega
      rw [all, List.take_length] at front
      exact filled prk info (by omega) front
  | succ fuel ih =>
      rw [expandLogged]
      split
      · next unfinished =>
        have start : written = 32 * count := by omega
        have length : ((T prk info (count + 1)).take (min 32 (okm.length - written))).length =
            min 32 (okm.length - written) := by
          rw [List.length_take, length_T]
          omega
        have room : (copyAt okm written ((T prk info (count + 1)).take (min 32 (okm.length - written)))).length =
            okm.length := copyAt_length (by omega)
        have next : UInt8.ofNat (count + 1) + 1 = UInt8.ofNat (count + 1 + 1) := by simp
        have later := ih (count + 1) (written + min 32 (okm.length - written))
          (copyAt okm written ((T prk info (count + 1)).take (min 32 (okm.length - written))))
          (by omega) (by omega) ?_
        · have one : (okm.length + 31) / 32 - count = (okm.length + 31) / 32 - (count + 1) + 1 := by omega
          simp only [block_eq, next, later, room, one, List.range'_succ, List.map_cons]
        · -- the block continues the stream where the buffer ends
          have stops : (copyAt okm written ((T prk info (count + 1)).take (min 32 (okm.length - written)))).take
              (written + ((T prk info (count + 1)).take (min 32 (okm.length - written))).length) =
              okm.take written ++ (T prk info (count + 1)).take (min 32 (okm.length - written)) :=
            take_copyAt (Nat.le_of_lt unfinished)
          rw [length] at stops
          have whole : (stream prk info count).take written = stream prk info count := by
            apply List.take_of_length_le
            rw [length_stream, start]
          rw [stops, front, whole, stream, start, ← length_stream prk info count, List.take_length_add_append]
      · next done =>
        have all : written = okm.length := by omega
        rw [all, List.take_length] at front
        exact filled prk info (by omega) front

theorem hkdfExpand_toList (prk : Vector UInt8 32) (info : Bytes) {n : Nat} (okm : Vector UInt8 n) (few : n ≤ 8160) :
    (hkdfExpand prk info okm).1 = true ∧
    (hkdfExpand prk info okm).2.toList = (stream prk info ((n + 31) / 32)).take n ∧
    countersUsed prk info okm = (List.range' 1 ((n + 31) / 32)).map UInt8.ofNat := by
  have run := expandLogged_eq prk info n 0 0 okm.toList (by simp) (by simp) (by simp)
  have within : ¬ n > 255 * 32 := by omega
  rw [Vector.length_toList] at run
  rw [hkdfExpand, if_neg within]
  refine ⟨rfl, ?_, ?_⟩
  · have bytes := congrArg Prod.fst run
    rw [expandLogged_fst] at bytes
    exact bytes
  · exact congrArg Prod.snd run

theorem hkdfExpand_refused (prk : Vector UInt8 32) (info : Bytes) {n : Nat} (okm : Vector UInt8 n) (many : 8160 < n) :
    hkdfExpand prk info okm = (false, okm) :=
  if_pos many

/-- Up to 8160 bytes the buffer is filled with the front of the stream, one counter for each
    block and none of them zero; a longer buffer is refused as it is. -/
theorem hkdfExpand_exact (prk : Vector UInt8 32) (info : Bytes) :
    (∀ {n : Nat} (okm : Vector UInt8 n), (hkdfExpand prk info okm).1 = true ↔ n ≤ 8160) ∧
    (∀ {n : Nat} (okm : Vector UInt8 n), n ≤ 8160 →
      (hkdfExpand prk info okm).2.toList = (stream prk info ((n + 31) / 32)).take n ∧
      (countersUsed prk info okm).map UInt8.toNat = List.range' 1 ((n + 31) / 32) ∧
      (countersUsed prk info okm).Nodup ∧ 0 ∉ countersUsed prk info okm) ∧
    (∀ {n : Nat} (okm : Vector UInt8 n), 8160 < n → hkdfExpand prk info okm = (false, okm)) ∧
    ∀ {m n : Nat} (short : Vector UInt8 m) (long : Vector UInt8 n), m ≤ n → n ≤ 8160 →
      (hkdfExpand prk info short).2.toList <+: (hkdfExpand prk info long).2.toList := by
  refine ⟨?_, ?_, fun okm many => hkdfExpand_refused prk info okm many, ?_⟩
  · intro n okm
    constructor
    · intro accepted
      by_contra many
      rw [hkdfExpand_refused prk info okm (Nat.lt_of_not_le many)] at accepted
      cases accepted
    · intro few
      exact (hkdfExpand_toList prk info okm few).1
  · intro n okm few
    obtain ⟨-, output, counters⟩ := hkdfExpand_toList prk info okm few
    have numbers : (countersUsed prk info okm).map UInt8.toNat = List.range' 1 ((n + 31) / 32) := by
      have small : ∀ i ∈ List.range' 1 ((n + 31) / 32), (UInt8.toNat ∘ UInt8.ofNat) i = id i := by
        intro i member
        have range := List.mem_range'_1.mp member
        exact Nat.mod_eq_of_lt (by omega)
      rw [counters, List.map_map, List.map_congr_left small, List.map_id]
    refine ⟨output, numbers, ?_, ?_⟩
    · apply List.Nodup.of_map UInt8.toNat
      rw [numbers]
      exact List.nodup_range'
    · intro zero
      have member := List.mem_map_of_mem (f := UInt8.toNat) zero
      rw [numbers] at member
      exact absurd (List.mem_range'_1.mp member).1 (by decide)
  · intro m n short long ordered few
    obtain ⟨-, front, -⟩ := hkdfExpand_toList prk info short (Nat.le_trans ordered few)
    obtain ⟨-, whole, -⟩ := hkdfExpand_toList prk info long few
    obtain ⟨more, blocks⟩ : ∃ more, (n + 31) / 32 = (m + 31) / 32 + more := Nat.exists_eq_add_of_le (by omega)
    rw [front, whole, ← take_stream prk info (by omega : m ≤ 32 * ((m + 31) / 32)) more, ← blocks]
    exact List.take_prefix_take_left ordered

end Expand

end Blindplane.Crypto
