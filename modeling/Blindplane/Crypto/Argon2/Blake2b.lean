import Blindplane.Crypto.ChaCha.Rounds
import Blindplane.Lib.Slice
import Blindplane.Lib.Words

/-! # BLAKE2b

The last block of a message is flagged, so that a hasher keeps a full buffer until it knows
that more input follows. However the message is cut, the digest is that of RFC 7693.
-/

namespace Blindplane.Crypto.Argon2

open Lib

section Compression

abbrev Qword := BitVec 64

def BLAKE2B_IV : List Qword := [
    0x6a09e667f3bcc908,
    0xbb67ae8584caa73b,
    0x3c6ef372fe94f82b,
    0xa54ff53a5f1d36f1,
    0x510e527fade682d1,
    0x9b05688c2b3e6c1f,
    0x1f83d9abfb41bd6b,
    0x5be0cd19137e2179]

def SIGMA : List (List Nat) := [
    [0, 1, 2, 3, 4, 5, 6, 7, 8, 9, 10, 11, 12, 13, 14, 15],
    [14, 10, 4, 8, 9, 15, 13, 6, 1, 12, 0, 2, 11, 7, 5, 3],
    [11, 8, 12, 0, 5, 2, 15, 13, 10, 14, 3, 6, 7, 1, 9, 4],
    [7, 9, 3, 1, 13, 12, 11, 14, 2, 6, 5, 10, 4, 0, 15, 8],
    [9, 0, 5, 7, 2, 4, 10, 15, 14, 1, 11, 12, 6, 8, 3, 13],
    [2, 12, 6, 10, 0, 11, 8, 3, 4, 13, 7, 5, 15, 14, 1, 9],
    [12, 5, 1, 15, 14, 13, 4, 10, 0, 7, 6, 3, 9, 2, 8, 11],
    [13, 11, 7, 14, 12, 1, 3, 9, 5, 0, 15, 4, 8, 6, 2, 10],
    [6, 15, 14, 9, 11, 3, 0, 8, 12, 2, 13, 7, 1, 4, 10, 5],
    [10, 2, 8, 4, 7, 6, 1, 5, 15, 11, 9, 14, 3, 12, 13, 0],
    [0, 1, 2, 3, 4, 5, 6, 7, 8, 9, 10, 11, 12, 13, 14, 15],
    [14, 10, 4, 8, 9, 15, 13, 6, 1, 12, 0, 2, 11, 7, 5, 3]]

/-- Four words mixed, with what stands for the additions. -/
def quarter (addX addY addC : Qword → Qword → Qword) (v : Vector Qword 16) (a b c d : Fin 16) : Vector Qword 16 :=
  let v := put v a (addX (v.get a) (v.get b))
  let v := put v d ((v.get d ^^^ v.get a).rotateRight 32)
  let v := put v c (addC (v.get c) (v.get d))
  let v := put v b ((v.get b ^^^ v.get c).rotateRight 24)
  let v := put v a (addY (v.get a) (v.get b))
  let v := put v d ((v.get d ^^^ v.get a).rotateRight 16)
  let v := put v c (addC (v.get c) (v.get d))
  put v b ((v.get b ^^^ v.get c).rotateRight 63)

def mix (v : Vector Qword 16) (a b c d : Fin 16) (x y : Qword) : Vector Qword 16 :=
  quarter (fun p q => p + q + x) (fun p q => p + q + y) (· + ·) v a b c d

/-- One round: the columns and the diagonals, which are those of ChaCha. -/
def mixRound (m : Nat → Qword) (v : Vector Qword 16) (s : List Nat) : Vector Qword 16 :=
  RoundOps.SCHEDULE.zipIdx.foldl
    (fun v ((a, b, c, d), i) => mix v a b c d (m (s.getD (2 * i) 0)) (m (s.getD (2 * i + 1) 0))) v

def compress (h : Vector Qword 8) (block : Bytes) (counter : BitVec 128) (last : Bool) : Vector Qword 8 :=
  let m := fun i => BitVec.ofNat 64 (Bytes.readLe64 block (i * 8))
  let v : Vector Qword 16 := Vector.ofFn fun i =>
    let word := if i.val < 8 then h.toList.getD i.val 0 else BLAKE2B_IV.getD (i.val - 8) 0
    if i.val = 12 then word ^^^ counter.setWidth 64
    else if i.val = 13 then word ^^^ (counter >>> 64).setWidth 64
    else if i.val = 14 ∧ last then ~~~word
    else word
  let v := SIGMA.foldl (mixRound m) v
  Vector.ofFn fun i => h.get i ^^^ (v.toList.getD i.val 0 ^^^ v.toList.getD (i.val + 8) 0)

/-- The first state: the parameter block is the digest length, no key, fanout and depth one. -/
def initial (outputLen : Nat) : Vector Qword 8 :=
  Vector.ofFn fun i =>
    let word := BLAKE2B_IV.getD i.val 0
    if i.val = 0 then word ^^^ (0x01010000 ^^^ BitVec.ofNat 64 outputLen) else word

/-- The words of a state, little-endian. -/
def stateBytes (h : Vector Qword 8) : Bytes := h.toList.flatMap fun word => Bytes.le 8 word.toNat

theorem stateBytes_length (h : Vector Qword 8) : (stateBytes h).length = 64 := by
  rw [stateBytes, List.length_flatMap, List.map_congr_left fun word _ => Bytes.le_length 8 word.toNat, List.map_const',
    List.sum_replicate, Vector.length_toList]
  rfl

end Compression

/-- A BLAKE2b hasher. -/
structure Blake2b where
  h : Vector Qword 8
  buffer : Bytes
  buffered : Nat
  counter : BitVec 128
  outputLen : Nat

namespace Blake2b

section Routines

/-- Start an unkeyed digest producing `outputLen` bytes. -/
def new (outputLen : Nat) : Option Blake2b :=
  if 1 ≤ outputLen ∧ outputLen ≤ 64 then
    some { h := initial outputLen, buffer := List.replicate 128 0, buffered := 0, counter := 0, outputLen }
  else none

/-- A full buffer is only compressed once more input is known to exist. -/
def flush (hasher : Blake2b) : Blake2b :=
  if hasher.buffered = 128 then
    { hasher with
      h := compress hasher.h hasher.buffer (hasher.counter + 128) false
      buffered := 0
      counter := hasher.counter + 128 }
  else hasher

/-- Absorb as much input as the buffer has room for. -/
def absorb (hasher : Blake2b) (data : Bytes) : Option (Blake2b × Bytes) := do
  let hasher := hasher.flush
  let room ← Arithmetic.sub 64 128 hasher.buffered
  let take := min room data.length
  let buffer ← copyFromSlice hasher.buffer hasher.buffered (hasher.buffered + take) (data.take take)
  return ({ hasher with buffer, buffered := hasher.buffered + take }, data.drop take)

/-- The loop of `update`. -/
def updateFrom : (fuel : Nat) → (hasher : Blake2b) → (data : Bytes) → Option Blake2b
  | 0, hasher, data => if data = [] then some hasher else none
  | fuel + 1, hasher, data =>
      if data = [] then some hasher
      else do
        let (hasher, data) ← hasher.absorb data
        updateFrom fuel hasher data

/-- Absorb more input. Every turn takes at least one byte. -/
def update (hasher : Blake2b) (data : Bytes) : Option Blake2b := updateFrom data.length hasher data

/-- Finish and write the digest, over an output buffer of `outLen` bytes. -/
def finalizeInto (hasher : Blake2b) (outLen : Nat) : Option Bytes :=
  if outLen = hasher.outputLen then
    let counter := hasher.counter + BitVec.ofNat 128 hasher.buffered
    let buffer := hasher.buffer.take hasher.buffered ++ List.replicate (hasher.buffer.length - hasher.buffered) 0
    slice (stateBytes (compress hasher.h buffer counter true)) 0 hasher.outputLen
  else none

/-- A digest from start to finish, of a message in pieces. -/
def hash (outputLen : Nat) (pieces : List Bytes) : Option Bytes := do
  let hasher ← new outputLen
  let hasher ← pieces.foldlM update hasher
  hasher.finalizeInto outputLen

end Routines

end Blake2b

section Log

/-- What the compression function is called with. -/
structure Call where
  block : Bytes
  counter : BitVec 128
  last : Bool

namespace Blake2b

/-- The compressions of `flush`. -/
def flushCalls (hasher : Blake2b) : List Call :=
  if hasher.buffered = 128 then [{ block := hasher.buffer, counter := hasher.counter + 128, last := false }] else []

/-- `updateFrom` with a record of its compressions. -/
def updateFromLogged : (fuel : Nat) → (hasher : Blake2b) → (data : Bytes) → Option (Blake2b × List Call)
  | 0, hasher, data => if data = [] then some (hasher, []) else none
  | fuel + 1, hasher, data =>
      if data = [] then some (hasher, [])
      else do
        let (next, data) ← hasher.absorb data
        let (last, calls) ← updateFromLogged fuel next data
        return (last, hasher.flushCalls ++ calls)

def updatesLogged : (hasher : Blake2b) → (pieces : List Bytes) → Option (Blake2b × List Call)
  | hasher, [] => some (hasher, [])
  | hasher, piece :: pieces => do
      let (next, first) ← updateFromLogged piece.length hasher piece
      let (last, calls) ← updatesLogged next pieces
      return (last, first ++ calls)

/-- The compression of `finalizeInto`. -/
def finalCall (hasher : Blake2b) : Call where
  block := hasher.buffer.take hasher.buffered ++ List.replicate (hasher.buffer.length - hasher.buffered) 0
  counter := hasher.counter + BitVec.ofNat 128 hasher.buffered
  last := true

/-- `hash` with a record of its compressions. -/
def hashLogged (outputLen : Nat) (pieces : List Bytes) : Option (Bytes × List Call) := do
  let hasher ← new outputLen
  let (hasher, calls) ← hasher.updatesLogged pieces
  let digest ← hasher.finalizeInto outputLen
  return (digest, calls ++ [hasher.finalCall])

theorem updateFromLogged_fst (fuel : Nat) (hasher : Blake2b) (data : Bytes) :
    (updateFromLogged fuel hasher data).map Prod.fst = updateFrom fuel hasher data := by
  induction fuel generalizing hasher data with
  | zero =>
      rw [updateFromLogged, updateFrom]
      split <;> rfl
  | succ fuel ih =>
      rw [updateFromLogged, updateFrom]
      split
      · rfl
      · cases hasher.absorb data with
        | none => rfl
        | some taken =>
            simp only [Option.bind_eq_bind, Option.bind_some, ← ih]
            cases updateFromLogged fuel taken.1 taken.2 <;> rfl

theorem updatesLogged_fst (hasher : Blake2b) (pieces : List Bytes) :
    (updatesLogged hasher pieces).map Prod.fst = pieces.foldlM update hasher := by
  induction pieces generalizing hasher with
  | nil => rfl
  | cons piece pieces ih =>
      rw [updatesLogged, List.foldlM_cons, update, ← updateFromLogged_fst]
      cases updateFromLogged piece.length hasher piece with
      | none => rfl
      | some taken =>
          simp only [Option.bind_eq_bind, Option.bind_some, Option.map_some, ← ih]
          cases updatesLogged taken.1 pieces <;> rfl

theorem hashLogged_fst (outputLen : Nat) (pieces : List Bytes) :
    (hashLogged outputLen pieces).map Prod.fst = hash outputLen pieces := by
  rw [hashLogged, hash]
  cases new outputLen with
  | none => rfl
  | some hasher =>
      simp only [Option.bind_eq_bind, Option.bind_some, ← updatesLogged_fst]
      cases updatesLogged hasher pieces with
      | none => rfl
      | some taken =>
          simp only [Option.bind_some, Option.map_some]
          cases taken.1.finalizeInto outputLen <;> rfl

end Blake2b

end Log

namespace Rfc7693

/-- How many blocks a message takes: one at least. -/
def blockCount (length : Nat) : Nat := max 1 ((length + 127) / 128)

/-- Block `i`, filled up with zeros. -/
def block (message : Bytes) (i : Nat) : Bytes :=
  let piece := (message.drop (128 * i)).take 128
  piece ++ List.replicate (128 - piece.length) 0

/-- A block that is not the last, with the bytes up to its end. -/
def wholeCall (message : Bytes) (i : Nat) : Call where
  block := block message i
  counter := BitVec.ofNat 128 (128 * (i + 1))
  last := false

def wholeCalls (message : Bytes) (count : Nat) : List Call := (List.range count).map (wholeCall message)

/-- The compressions of a message: every block once, the last one flagged. -/
def calls (message : Bytes) : List Call :=
  let count := blockCount message.length
  wholeCalls message (count - 1) ++
    [{ block := block message (count - 1), counter := BitVec.ofNat 128 message.length, last := true }]

/-- The state after the first `count` blocks, none of them the last. -/
def front (outputLen : Nat) (message : Bytes) (count : Nat) : Vector Qword 8 :=
  (List.range count).foldl (fun h i => compress h (block message i) (BitVec.ofNat 128 (128 * (i + 1))) false)
    (initial outputLen)

/-- `BLAKE2b(message)` of `outputLen` bytes, without a key. -/
def blake2b (outputLen : Nat) (message : Bytes) : Bytes :=
  let count := blockCount message.length
  let last := compress (front outputLen message (count - 1)) (block message (count - 1))
    (BitVec.ofNat 128 message.length) true
  (stateBytes last).take outputLen

end Rfc7693

section Blocks

open Rfc7693

theorem front_zero (outputLen : Nat) (message : Bytes) : front outputLen message 0 = initial outputLen := by
  rw [front, List.range_zero, List.foldl_nil]

theorem front_succ (outputLen : Nat) (message : Bytes) (count : Nat) :
    front outputLen message (count + 1) =
      compress (front outputLen message count) (block message count) (BitVec.ofNat 128 (128 * (count + 1))) false := by
  rw [front, List.range_succ, List.foldl_append]
  rfl

/-- A whole block is there as it is. -/
theorem block_eq {message : Bytes} {i : Nat} (whole : 128 * (i + 1) ≤ message.length) :
    block message i = (message.drop (128 * i)).take 128 := by
  have length : ((message.drop (128 * i)).take 128).length = 128 := by
    rw [List.length_take, List.length_drop]
    omega
  simp only [block, length, Nat.sub_self, List.replicate_zero, List.append_nil]

theorem block_append {message : Bytes} {i : Nat} (whole : 128 * (i + 1) ≤ message.length) (more : Bytes) :
    block (message ++ more) i = block message i := by
  have longer : 128 * (i + 1) ≤ (message ++ more).length := by
    rw [List.length_append]
    omega
  have room : 128 ≤ (message.drop (128 * i)).length := by
    rw [List.length_drop]
    omega
  rw [block_eq whole, block_eq longer, List.drop_append_of_le_length (by omega), List.take_append_of_le_length room]

/-- What comes later does not change the blocks before. -/
theorem front_append (outputLen : Nat) {message : Bytes} {count : Nat} (whole : 128 * count ≤ message.length)
    (more : Bytes) : front outputLen (message ++ more) count = front outputLen message count := by
  induction count with
  | zero => rw [front_zero, front_zero]
  | succ count ih => rw [front_succ, front_succ, ih (by omega), block_append whole]

theorem wholeCalls_succ (message : Bytes) (count : Nat) :
    wholeCalls message (count + 1) = wholeCalls message count ++ [wholeCall message count] := by
  simp [wholeCalls, List.range_succ]

theorem wholeCalls_append {message : Bytes} {count : Nat} (whole : 128 * count ≤ message.length) (more : Bytes) :
    wholeCalls (message ++ more) count = wholeCalls message count := by
  apply List.map_congr_left
  intro i member
  have before := List.mem_range.mp member
  rw [wholeCall, wholeCall, block_append (by omega)]

/-- Whole blocks are the front of the message. -/
theorem flatten_wholeCalls {message : Bytes} {count : Nat} (whole : 128 * count ≤ message.length) :
    ((wholeCalls message count).map Call.block).flatten = message.take (128 * count) := by
  induction count with
  | zero => rfl
  | succ count ih =>
      rw [wholeCalls_succ, List.map_append, List.flatten_append, ih (by omega), Nat.mul_succ, List.take_add, wholeCall]
      simp [block_eq whole]

/-- The compressions of a message take it up once, filled up with zeros to whole blocks. -/
theorem flatten_calls (message : Bytes) :
    ((calls message).map Call.block).flatten =
      message ++ List.replicate (128 * blockCount message.length - message.length) 0 := by
  have few : 128 * (blockCount message.length - 1) ≤ message.length := by
    rw [blockCount]
    omega
  have rest : (message.drop (128 * (blockCount message.length - 1))).length ≤ 128 := by
    rw [List.length_drop, blockCount]
    omega
  have zeros : 128 - (message.length - 128 * (blockCount message.length - 1)) =
      128 * blockCount message.length - message.length := by
    rw [blockCount]
    omega
  rw [calls, List.map_append, List.flatten_append, flatten_wholeCalls few]
  simp only [List.map_cons, List.map_nil, List.flatten_singleton, block, List.take_of_length_le rest, List.length_drop, zeros]
  rw [← List.append_assoc, List.take_append_drop]

end Blocks

namespace Blake2b

open Rfc7693

/-- A hasher that has taken `seen`: the first `count` blocks are compressed, and the rest is
    in front of the buffer. -/
structure Holds (outputLen : Nat) (hasher : Blake2b) (seen : Bytes) (count : Nat) : Prop where
  room : hasher.buffer.length = 128
  full : hasher.buffered ≤ 128
  length : seen.length = 128 * count + hasher.buffered
  rest : hasher.buffer.take hasher.buffered = seen.drop (128 * count)
  state : hasher.h = front outputLen seen count
  counter : hasher.counter = BitVec.ofNat 128 (128 * count)
  output : hasher.outputLen = outputLen

/-- Something is kept for the last block, unless there was nothing. -/
def Keeps (hasher : Blake2b) (count : Nat) : Prop := count = 0 ∨ 0 < hasher.buffered

variable {outputLen count : Nat} {hasher : Blake2b} {seen data : Bytes}

theorem Holds.flush (holds : Holds outputLen hasher seen count) :
    ∃ count', Holds outputLen hasher.flush seen count' ∧ hasher.flush.buffered < 128 ∧
      wholeCalls seen count ++ hasher.flushCalls = wholeCalls seen count' := by
  by_cases complete : hasher.buffered = 128
  · obtain ⟨room, full, length, rest, state, counter, output⟩ := holds
    rw [complete] at length rest
    have whole : 128 * (count + 1) ≤ seen.length := by omega
    have buffered : hasher.buffer = block seen count := by
      rw [block_eq whole, ← rest, ← room, List.take_length, List.take_length]
    have counted : hasher.counter + 128 = BitVec.ofNat 128 (128 * (count + 1)) := by
      rw [counter, Nat.mul_succ, BitVec.ofNat_add]
      rfl
    have none_left : seen.drop (128 * (count + 1)) = [] := by
      apply List.drop_of_length_le
      omega
    rw [Blake2b.flush, if_pos complete, flushCalls, if_pos complete]
    refine ⟨count + 1, ⟨room, Nat.zero_le _, by omega, ?_, ?_, counted, output⟩, Nat.zero_lt_succ _, ?_⟩
    · rw [List.take_zero, none_left]
    · rw [front_succ, state, buffered, counted]
    · rw [wholeCalls_succ, wholeCall, buffered, counted]
  · rw [Blake2b.flush, if_neg complete, flushCalls, if_neg complete]
    exact ⟨count, holds, Nat.lt_of_le_of_ne holds.full complete, List.append_nil _⟩

/-- One turn of the loop takes something. -/
theorem Holds.absorb (holds : Holds outputLen hasher seen count) (more : data ≠ []) :
    ∃ hasher' count' take, 0 < take ∧ hasher.absorb data = some (hasher', data.drop take) ∧
      Holds outputLen hasher' (seen ++ data.take take) count' ∧ 0 < hasher'.buffered ∧
      wholeCalls seen count ++ hasher.flushCalls = wholeCalls (seen ++ data.take take) count' := by
  have some_data : 0 < data.length := List.length_pos_iff.mpr more
  obtain ⟨count', ⟨room, full, length, rest, state, counter, output⟩, short, logged⟩ := holds.flush
  obtain ⟨flushed, eflushed⟩ : ∃ flushed, flushed = hasher.flush := ⟨_, rfl⟩
  rw [← eflushed] at room full length rest state counter output short
  obtain ⟨take, etake⟩ : ∃ take, take = min (128 - flushed.buffered) data.length := ⟨_, rfl⟩
  have taken : (data.take take).length = take := by
    rw [List.length_take]
    omega
  have left : (Arithmetic.sub 64 128 flushed.buffered : Option Nat) = some (128 - flushed.buffered) :=
    Arithmetic.sub_eq (by decide) full
  have copied : copyFromSlice flushed.buffer flushed.buffered (flushed.buffered + take) (data.take take) =
      some (copyAt flushed.buffer flushed.buffered (data.take take)) :=
    copyFromSlice_eq (by omega) (by omega)
  refine ⟨{ flushed with
    buffer := copyAt flushed.buffer flushed.buffered (data.take take), buffered := flushed.buffered + take },
    count', take, by omega, ?_, ?_, ?_, ?_⟩
  · simp only [Blake2b.absorb, ← eflushed, left, Option.bind_eq_bind, Option.bind_some, ← etake, copied]
    rfl
  · refine ⟨?_, ?_, ?_, ?_, ?_, counter, output⟩
    · exact (copyAt_length (by omega)).trans room
    · show flushed.buffered + take ≤ 128
      omega
    · show (seen ++ data.take take).length = 128 * count' + (flushed.buffered + take)
      rw [List.length_append, taken, length, Nat.add_assoc]
    · have written := @take_copyAt _ flushed.buffer (data.take take) flushed.buffered (by omega)
      rw [taken, rest] at written
      rw [List.drop_append_of_le_length (by omega)]
      exact written
    · show flushed.h = _
      rw [state, front_append _ (by omega)]
  · show 0 < flushed.buffered + take
    omega
  · rw [logged, wholeCalls_append (by omega)]

theorem Holds.updateFrom {fuel : Nat} (holds : Holds outputLen hasher seen count) (keeps : Keeps hasher count)
    (enough : data.length ≤ fuel) :
    ∃ hasher' count' calls, updateFromLogged fuel hasher data = some (hasher', calls) ∧
      Holds outputLen hasher' (seen ++ data) count' ∧ Keeps hasher' count' ∧
      wholeCalls seen count ++ calls = wholeCalls (seen ++ data) count' := by
  induction fuel generalizing hasher seen count data with
  | zero =>
      have none_left : data = [] := List.eq_nil_of_length_eq_zero (Nat.le_zero.mp enough)
      subst none_left
      rw [List.append_nil]
      exact ⟨hasher, count, [], if_pos rfl, holds, keeps, List.append_nil _⟩
  | succ fuel ih =>
      by_cases none_left : data = []
      · subst none_left
        rw [List.append_nil]
        exact ⟨hasher, count, [], if_pos rfl, holds, keeps, List.append_nil _⟩
      · obtain ⟨next, count', take, some_taken, ran, held, kept, flushed⟩ := holds.absorb none_left
        have fewer : (data.drop take).length ≤ fuel := by
          rw [List.length_drop]
          omega
        obtain ⟨last, count'', calls, rest, final, finally_kept, logged⟩ := ih held (.inr kept) fewer
        rw [List.append_assoc, List.take_append_drop] at final logged
        refine ⟨last, count'', hasher.flushCalls ++ calls, ?_, final, finally_kept, ?_⟩
        · simp only [updateFromLogged, if_neg none_left, ran, Option.bind_eq_bind, Option.bind_some, rest]
          rfl
        · rw [← List.append_assoc, flushed, logged]

theorem Holds.updates {pieces : List Bytes} (holds : Holds outputLen hasher seen count) (keeps : Keeps hasher count) :
    ∃ hasher' count' calls, updatesLogged hasher pieces = some (hasher', calls) ∧
      Holds outputLen hasher' (seen ++ pieces.flatten) count' ∧ Keeps hasher' count' ∧
      wholeCalls seen count ++ calls = wholeCalls (seen ++ pieces.flatten) count' := by
  induction pieces generalizing hasher seen count with
  | nil =>
      rw [List.flatten_nil, List.append_nil]
      exact ⟨hasher, count, [], rfl, holds, keeps, List.append_nil _⟩
  | cons piece rest ih =>
      obtain ⟨next, count', first, ran, held, kept, taken⟩ := holds.updateFrom keeps (Nat.le_refl piece.length)
      obtain ⟨last, count'', calls, later, final, finally_kept, logged⟩ := ih held kept
      rw [List.append_assoc, ← List.flatten_cons] at final logged
      refine ⟨last, count'', first ++ calls, ?_, final, finally_kept, ?_⟩
      · simp only [updatesLogged, ran, Option.bind_eq_bind, Option.bind_some, later]
        rfl
      · rw [← List.append_assoc, taken, logged]

theorem Holds.finalizeInto (holds : Holds outputLen hasher seen count) (keeps : Keeps hasher count) (few : outputLen ≤ 64) :
    hasher.finalizeInto outputLen = some (blake2b outputLen seen) ∧
      wholeCalls seen count ++ [hasher.finalCall] = calls seen := by
  obtain ⟨room, full, length, rest, state, counter, output⟩ := holds
  have last : Rfc7693.blockCount seen.length - 1 = count := by
    rw [Rfc7693.blockCount]
    cases keeps with
    | inl first => omega
    | inr kept => omega
  have left : seen.length - 128 * count = hasher.buffered := by omega
  have piece : block seen count =
      hasher.buffer.take hasher.buffered ++ List.replicate (hasher.buffer.length - hasher.buffered) 0 := by
    have short : (seen.drop (128 * count)).take 128 = seen.drop (128 * count) := by
      apply List.take_of_length_le
      rw [List.length_drop]
      omega
    simp only [block, short, rest, room, List.length_drop, left]
  have total : hasher.counter + BitVec.ofNat 128 hasher.buffered = BitVec.ofNat 128 seen.length := by
    rw [counter, ← BitVec.ofNat_add, length]
  have fits : outputLen ≤ (stateBytes (compress hasher.h (block seen count) (BitVec.ofNat 128 seen.length) true)).length := by
    rw [stateBytes_length]
    exact few
  constructor
  · simp only [Blake2b.finalizeInto, if_pos output.symm, total, ← piece]
    rw [output, slice_zero fits, blake2b, last, state]
  · rw [finalCall, total, ← piece, calls, last]

/-- However the message is cut, the digest and the compressions are those of RFC 7693. -/
theorem hashLogged_eq (positive : 1 ≤ outputLen) (few : outputLen ≤ 64) (pieces : List Bytes) :
    hashLogged outputLen pieces = some (blake2b outputLen pieces.flatten, calls pieces.flatten) := by
  have start : Holds outputLen
      { h := initial outputLen, buffer := List.replicate 128 0, buffered := 0, counter := 0, outputLen } [] 0 :=
    ⟨List.length_replicate, Nat.zero_le _, rfl, rfl, (front_zero outputLen []).symm, rfl, rfl⟩
  obtain ⟨hasher, count, calls, ran, holds, keeps, logged⟩ := @Holds.updates _ _ _ _ pieces start (.inl rfl)
  obtain ⟨digest, final⟩ := holds.finalizeInto keeps few
  have begun : new outputLen = some { h := initial outputLen, buffer := List.replicate 128 0, buffered := 0, counter := 0, outputLen } :=
    if_pos ⟨positive, few⟩
  rw [List.nil_append] at digest final logged
  rw [hashLogged, begun]
  simp only [Option.bind_eq_bind, Option.bind_some, ran, digest]
  rw [← final, ← logged]
  rfl

theorem hash_eq (positive : 1 ≤ outputLen) (few : outputLen ≤ 64) (pieces : List Bytes) :
    hash outputLen pieces = some (blake2b outputLen pieces.flatten) := by
  rw [← hashLogged_fst, hashLogged_eq positive few, Option.map_some]

end Blake2b

end Blindplane.Crypto.Argon2
