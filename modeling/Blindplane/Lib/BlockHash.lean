import Blindplane.Lib.Blocks
import Mathlib.Data.Nat.ModEq

/-! # Hashes built on a compression function

The digest of a padded message is a fold of the compression function over its blocks. A
hasher takes the message in pieces: it buffers what does not fill a block, and pads by
taking the padding as further pieces. However the message is cut, the digest is that of the
whole.
-/

namespace Blindplane.Lib

/-- A compression function, and how messages are padded for it. -/
structure BlockHash (σ : Type) where
  blockLen : Nat
  /-- Bytes of the length field. -/
  lengthLen : Nat
  initial : σ
  compress : σ → Bytes → σ
  output : σ → Bytes
  counted : 0 < lengthLen
  fits : lengthLen < blockLen

namespace BlockHash

variable {σ : Type} (hash : BlockHash σ)

theorem positive : 0 < hash.blockLen := Nat.zero_lt_of_lt hash.fits

section Digest

/-- The compression function over whole blocks. -/
def fold (s : σ) (data : Bytes) : σ := (chunks hash.blockLen data).foldl hash.compress s

/-- Zero bytes between the marker and the length, for a message of `length` bytes: up to
    the length field of the block that the marker is in, or of the next. -/
def zeros (length : Nat) : Nat :=
  (hash.blockLen - hash.lengthLen + (hash.blockLen - (length + 1) % hash.blockLen)) % hash.blockLen

/-- The marker `0x80`, the zeros and the bit length. -/
def pad (message : Bytes) : Bytes :=
  message ++ [0x80] ++ List.replicate (hash.zeros message.length) 0 ++ Bytes.be hash.lengthLen (8 * message.length)

/-- The digest of a message. -/
def digest (message : Bytes) : Bytes := hash.output (hash.fold hash.initial (hash.pad message))

theorem fold_append (s : σ) {front : Bytes} (whole : hash.blockLen ∣ front.length) (back : Bytes) :
    hash.fold s (front ++ back) = hash.fold (hash.fold s front) back := by
  rw [fold, chunks_append hash.positive whole, List.foldl_append, fold, fold]

@[simp] theorem fold_nil (s : σ) : hash.fold s [] = s := by
  rw [fold, chunks_nil, List.foldl_nil]

/-- The zeros bring a message and its marker up to the length field. -/
theorem zeros_modEq (length : Nat) :
    length + 1 + hash.zeros length ≡ hash.blockLen - hash.lengthLen [MOD hash.blockLen] := by
  have below := Nat.mod_lt (length + 1) hash.positive
  calc length + 1 + hash.zeros length
      ≡ (length + 1) % hash.blockLen + (hash.blockLen - hash.lengthLen + (hash.blockLen - (length + 1) % hash.blockLen))
          [MOD hash.blockLen] := (Nat.mod_modEq _ _).symm.add (Nat.mod_modEq _ _)
    _ = hash.blockLen - hash.lengthLen + hash.blockLen := by omega
    _ ≡ hash.blockLen - hash.lengthLen [MOD hash.blockLen] := Nat.add_modEq_right

/-- A padded message is a whole number of blocks. -/
theorem dvd_length_pad (message : Bytes) : hash.blockLen ∣ (hash.pad message).length := by
  have fits := hash.fits
  have total : (hash.pad message).length = message.length + 1 + hash.zeros message.length + hash.lengthLen := by
    simp only [pad, List.length_append, List.length_singleton, List.length_replicate, Bytes.be_length]
  apply (Nat.modEq_zero_iff_dvd).mp
  rw [total]
  calc message.length + 1 + hash.zeros message.length + hash.lengthLen
      ≡ hash.blockLen - hash.lengthLen + hash.lengthLen [MOD hash.blockLen] := (hash.zeros_modEq _).add_right _
    _ = hash.blockLen := Nat.sub_add_cancel fits.le
    _ ≡ 0 [MOD hash.blockLen] := by rw [Nat.ModEq, Nat.mod_self, Nat.zero_mod]

/-- The zeros are fewer than a block, and bring the length field to the end of one. -/
theorem zeros_spec (length : Nat) :
    hash.zeros length < hash.blockLen ∧
      (length + 1 + hash.zeros length) % hash.blockLen = hash.blockLen - hash.lengthLen := by
  have counted := hash.counted
  have fits := hash.fits
  constructor
  · exact Nat.mod_lt _ hash.positive
  · have landed : (length + 1 + hash.zeros length) % hash.blockLen = (hash.blockLen - hash.lengthLen) % hash.blockLen :=
      hash.zeros_modEq length
    rw [landed, Nat.mod_eq_of_lt (by omega)]

end Digest

end BlockHash

/-- A hasher: what the whole blocks so far were compressed to, and the rest in front of the
    buffer. The length wraps. -/
structure Hasher (σ : Type) where
  state : σ
  buffer : Bytes
  buffered : Nat
  length : Nat

namespace Hasher

variable {σ : Type} (hash : BlockHash σ) (compressBlocks : σ → Bytes → σ)

section Routines

/-- Start a new digest. -/
def new : Hasher σ :=
  { state := hash.initial, buffer := List.replicate hash.blockLen 0, buffered := 0, length := 0 }

/-- Complete the buffered block, if there is one, as far as the data goes. -/
def fill (h : Hasher σ) (data : Bytes) : Hasher σ × Bytes :=
  if 0 < h.buffered then
    let take := min (hash.blockLen - h.buffered) data.length
    let h := { h with buffer := copyAt h.buffer h.buffered (data.take take), buffered := h.buffered + take }
    let data := data.drop take
    if h.buffered = hash.blockLen then ({ h with state := compressBlocks h.state h.buffer, buffered := 0 }, data)
    else (h, data)
  else (h, data)

/-- Compress the whole blocks in front. -/
def bulk (h : Hasher σ) (data : Bytes) : Hasher σ × Bytes :=
  let full := data.length / hash.blockLen * hash.blockLen
  if 0 < full then ({ h with state := compressBlocks h.state (data.take full) }, data.drop full)
  else (h, data)

/-- Keep what is shorter than a block for later. -/
def hold (h : Hasher σ) (data : Bytes) : Hasher σ :=
  if data = [] then h else { h with buffer := copyAt h.buffer 0 data, buffered := data.length }

/-- Absorb more input. -/
def update (h : Hasher σ) (data : Bytes) : Hasher σ :=
  let h := { h with length := (h.length + data.length) % 256 ^ hash.lengthLen }
  let (h, data) := h.fill hash compressBlocks data
  let (h, data) := h.bulk hash compressBlocks data
  h.hold data

/-- `update` counted a padding byte; the length field must not. -/
def uncount (h : Hasher σ) : Hasher σ :=
  { h with length := (h.length + (256 ^ hash.lengthLen - 1)) % 256 ^ hash.lengthLen }

/-- Absorb zero bytes up to the length field, `fuel` of them at most. -/
def padZeros (fuel : Nat) (h : Hasher σ) : Option (Hasher σ) :=
  if h.buffered = hash.blockLen - hash.lengthLen then some h
  else
    match fuel with
    | 0 => none
    | fuel + 1 => padZeros fuel ((h.update hash compressBlocks [0]).uncount hash)

/-- Finish and return the digest. -/
def finalize (fuel : Nat) (h : Hasher σ) : Option Bytes := do
  let bitLength := h.length * 8 % 256 ^ hash.lengthLen
  let h := (h.update hash compressBlocks [0x80]).uncount hash
  let h ← padZeros hash compressBlocks fuel h
  let h := h.update hash compressBlocks (Bytes.be hash.lengthLen bitLength)
  return hash.output h.state

end Routines

section Runs

/-- Compressing several blocks at once is compressing them one by one. -/
def Compresses : Prop :=
  ∀ s data, hash.blockLen ∣ data.length → compressBlocks s data = hash.fold s data

/-- A hasher that has taken `seen`: whole blocks are compressed, and the rest is in front
    of the buffer. -/
structure Holds (h : Hasher σ) (seen : Bytes) : Prop where
  room : h.buffer.length = hash.blockLen
  short : h.buffered < hash.blockLen
  blocks : ∃ front, hash.blockLen ∣ front.length ∧ seen = front ++ h.buffer.take h.buffered ∧
    h.state = hash.fold hash.initial front

variable {hash compressBlocks} {h : Hasher σ} {seen data : Bytes}

theorem new_holds : (new hash).Holds hash [] :=
  ⟨List.length_replicate, hash.positive, [], dvd_zero _, rfl, by rw [hash.fold_nil]; rfl⟩

/-- The length is not looked at. -/
theorem Holds.count (holds : h.Holds hash seen) (length : Nat) : { h with length }.Holds hash seen :=
  ⟨holds.room, holds.short, holds.blocks⟩

/-- The fill level is what the blocks leave. -/
theorem Holds.buffered_eq (holds : h.Holds hash seen) : h.buffered = seen.length % hash.blockLen := by
  obtain ⟨room, short, front, ⟨count, whole⟩, parts, -⟩ := holds
  rw [parts, List.length_append, whole, Nat.mul_add_mod, List.length_take, room, Nat.min_eq_left short.le,
    Nat.mod_eq_of_lt short]

/-- Compressing whole blocks behind whole blocks. -/
theorem fold_compressBlocks (compresses : Compresses hash compressBlocks) {front block : Bytes}
    (whole : hash.blockLen ∣ front.length) (whole' : hash.blockLen ∣ block.length) :
    hash.blockLen ∣ (front ++ block).length ∧
      compressBlocks (hash.fold hash.initial front) block = hash.fold hash.initial (front ++ block) := by
  constructor
  · rw [List.length_append]
    exact Nat.dvd_add whole whole'
  · rw [compresses _ _ whole', hash.fold_append _ whole]

/-- After filling, either nothing is buffered or no data is left. -/
theorem Holds.fill (compresses : Compresses hash compressBlocks) (holds : h.Holds hash seen) (data : Bytes) :
    ∃ seen', (h.fill hash compressBlocks data).1.Holds hash seen' ∧
      seen' ++ (h.fill hash compressBlocks data).2 = seen ++ data ∧
      ((h.fill hash compressBlocks data).1.buffered = 0 ∨ (h.fill hash compressBlocks data).2 = []) := by
  by_cases some : 0 < h.buffered
  · obtain ⟨room, short, front, whole, parts, state⟩ := holds
    obtain ⟨take, etake⟩ : ∃ take, take = min (hash.blockLen - h.buffered) data.length := ⟨_, rfl⟩
    have taken : (data.take take).length = take := by
      rw [List.length_take]
      omega
    have inside : h.buffered + (data.take take).length ≤ h.buffer.length := by
      rw [taken, room]
      omega
    obtain ⟨buffer, ebuffer⟩ : ∃ buffer, buffer = copyAt h.buffer h.buffered (data.take take) := ⟨_, rfl⟩
    have room' : buffer.length = hash.blockLen := by
      rw [ebuffer, copyAt_length inside, room]
    have written : buffer.take (h.buffered + take) = h.buffer.take h.buffered ++ data.take take := by
      rw [ebuffer, ← take_copyAt (by omega), taken]
    have filled : front ++ buffer.take (h.buffered + take) ++ data.drop take = seen ++ data := by
      rw [written, parts, ← List.append_assoc, List.append_assoc, List.take_append_drop]
    by_cases complete : h.buffered + take = hash.blockLen
    · have full : buffer.take (h.buffered + take) = buffer := by
        rw [complete, ← room', List.take_length]
      rw [full] at filled
      obtain ⟨whole', compressed⟩ := fold_compressBlocks compresses whole (dvd_of_eq room'.symm)
      simp only [Hasher.fill, if_pos some, ← etake, ← ebuffer, if_pos complete]
      refine ⟨front ++ buffer, ⟨room', hash.positive, front ++ buffer, whole', ?_, ?_⟩, filled, .inl trivial⟩
      · rw [List.take_zero, List.append_nil]
      · rw [state, compressed]
    · have all : data.drop take = [] := by
        apply List.drop_of_length_le
        omega
      have below : h.buffered + take < hash.blockLen := by omega
      simp only [Hasher.fill, if_pos some, ← etake, ← ebuffer, if_neg complete]
      exact ⟨front ++ buffer.take (h.buffered + take), ⟨room', below, front, whole, rfl, state⟩, filled, .inr all⟩
  · simp only [Hasher.fill, if_neg some]
    exact ⟨seen, holds, rfl, .inl (Nat.eq_zero_of_not_pos some)⟩

theorem Holds.bulk (compresses : Compresses hash compressBlocks) (holds : h.Holds hash seen)
    (either : h.buffered = 0 ∨ data = []) :
    ∃ seen', (h.bulk hash compressBlocks data).1.Holds hash seen' ∧
      seen' ++ (h.bulk hash compressBlocks data).2 = seen ++ data ∧
      ((h.bulk hash compressBlocks data).1.buffered = 0 ∨ (h.bulk hash compressBlocks data).2 = []) ∧
      (h.bulk hash compressBlocks data).2.length < hash.blockLen := by
  obtain ⟨full, efull⟩ : ∃ full, full = data.length / hash.blockLen * hash.blockLen := ⟨_, rfl⟩
  have division := Nat.div_add_mod data.length hash.blockLen
  have rest := Nat.mod_lt data.length hash.positive
  rw [Nat.mul_comm, ← efull] at division
  by_cases some : 0 < full
  · have empty : h.buffered = 0 := by
      cases either with
      | inl empty => exact empty
      | inr none =>
          rw [none, List.length_nil, Nat.zero_div, Nat.zero_mul] at efull
          omega
    obtain ⟨room, short, front, whole, parts, state⟩ := holds
    rw [empty, List.take_zero, List.append_nil] at parts
    have piece : (data.take full).length = full := by
      rw [List.length_take]
      omega
    have blocks : hash.blockLen ∣ (data.take full).length := by
      rw [piece, efull]
      exact Nat.dvd_mul_left _ _
    obtain ⟨whole', compressed⟩ := fold_compressBlocks compresses whole blocks
    simp only [Hasher.bulk, ← efull, if_pos some]
    refine ⟨front ++ data.take full, ⟨room, short, front ++ data.take full, whole', ?_, ?_⟩, ?_, .inl empty, ?_⟩
    · show _ = _ ++ h.buffer.take h.buffered
      rw [empty, List.take_zero, List.append_nil]
    · rw [state, compressed]
    · rw [parts, List.append_assoc, List.take_append_drop]
    · rw [List.length_drop]
      omega
  · simp only [Hasher.bulk, ← efull, if_neg some]
    exact ⟨seen, holds, rfl, either, by omega⟩

theorem Holds.hold (holds : h.Holds hash seen) (either : h.buffered = 0 ∨ data = [])
    (few : data.length < hash.blockLen) : (h.hold data).Holds hash (seen ++ data) := by
  rw [Hasher.hold]
  by_cases none : data = []
  · rwa [if_pos none, none, List.append_nil]
  · rw [if_neg none]
    obtain ⟨room, short, front, whole, parts, state⟩ := holds
    have empty := either.resolve_right none
    rw [empty, List.take_zero, List.append_nil] at parts
    have inside : 0 + data.length ≤ h.buffer.length := by
      rw [room]
      omega
    have written := @take_copyAt _ h.buffer data 0 (Nat.zero_le _)
    rw [List.take_zero, List.nil_append, Nat.zero_add] at written
    exact ⟨(copyAt_length inside).trans room, few, front, whole, by rw [parts, written], state⟩

/-- However the message is cut, what has been taken is all that counts. -/
theorem Holds.update (compresses : Compresses hash compressBlocks) (holds : h.Holds hash seen) (data : Bytes) :
    (h.update hash compressBlocks data).Holds hash (seen ++ data) := by
  have counted := holds.count ((h.length + data.length) % 256 ^ hash.lengthLen)
  obtain ⟨seen₁, holds₁, same₁, either₁⟩ := counted.fill compresses data
  obtain ⟨seen₂, holds₂, same₂, either₂, few⟩ := holds₁.bulk compresses either₁
  have held := holds₂.hold either₂ few
  rw [same₂, same₁] at held
  exact held

theorem fill_length (h : Hasher σ) (data : Bytes) : (h.fill hash compressBlocks data).1.length = h.length := by
  simp only [Hasher.fill]
  split
  · split
    · rfl
    · rfl
  · rfl

theorem bulk_length (h : Hasher σ) (data : Bytes) : (h.bulk hash compressBlocks data).1.length = h.length := by
  simp only [Hasher.bulk]
  split
  · rfl
  · rfl

theorem hold_length (h : Hasher σ) (data : Bytes) : (h.hold data).length = h.length := by
  rw [Hasher.hold]
  split
  · rfl
  · rfl

/-- The length counts what is taken. -/
theorem update_length (h : Hasher σ) (data : Bytes) :
    (h.update hash compressBlocks data).length = (h.length + data.length) % 256 ^ hash.lengthLen := by
  simp only [Hasher.update]
  rw [hold_length, bulk_length, fill_length]

/-- How far a fill level is from another one, going round. -/
private theorem distance_eq {size goal level : Nat} (below : level < size) (inside : goal < size) :
    (goal + (size - level)) % size = if level ≤ goal then goal - level else goal + (size - level) := by
  by_cases before : level ≤ goal
  · have total : goal + (size - level) = goal - level + size := by omega
    rw [if_pos before, total, Nat.add_mod_right, Nat.mod_eq_of_lt (by omega)]
  · rw [if_neg before, Nat.mod_eq_of_lt (by omega)]

/-- One more byte in the buffer. -/
theorem Holds.buffered_succ (compresses : Compresses hash compressBlocks) (holds : h.Holds hash seen) (byte : UInt8) :
    (h.update hash compressBlocks [byte]).buffered = if h.buffered + 1 = hash.blockLen then 0 else h.buffered + 1 := by
  have short := holds.short
  rw [(holds.update compresses [byte]).buffered_eq, List.length_append, List.length_singleton, ← Nat.mod_add_mod,
    ← holds.buffered_eq]
  split
  · next full => rw [full, Nat.mod_self]
  · next more => exact Nat.mod_eq_of_lt (by omega)

/-- The padding loop ends, after fewer zeros than a block has bytes, from every fill level. -/
theorem Holds.padZeros (compresses : Compresses hash compressBlocks) (holds : h.Holds hash seen) {count fuel : Nat}
    (distance : count = (hash.blockLen - hash.lengthLen + (hash.blockLen - h.buffered)) % hash.blockLen)
    (enough : count ≤ fuel) :
    ∃ h', Hasher.padZeros hash compressBlocks fuel h = some h' ∧ h'.Holds hash (seen ++ List.replicate count 0) := by
  have counted := hash.counted
  have fits := hash.fits
  induction count generalizing h seen fuel with
  | zero =>
      have short := holds.short
      rw [distance_eq short (by omega)] at distance
      have there : h.buffered = hash.blockLen - hash.lengthLen := by
        split at distance
        · omega
        · omega
      refine ⟨h, ?_, ?_⟩
      · rw [Hasher.padZeros.eq_def, if_pos there]
      · rwa [List.replicate_zero, List.append_nil]
  | succ count ih =>
      have short := holds.short
      have next := holds.buffered_succ compresses 0
      have later := (holds.update compresses [0]).count
        (((h.update hash compressBlocks [0]).length + (256 ^ hash.lengthLen - 1)) % 256 ^ hash.lengthLen)
      rw [distance_eq short (by omega)] at distance
      have before : h.buffered ≠ hash.blockLen - hash.lengthLen := by
        split at distance
        · omega
        · omega
      have closer : count = (hash.blockLen - hash.lengthLen +
          (hash.blockLen - (h.update hash compressBlocks [0]).buffered)) % hash.blockLen := by
        rw [distance_eq (holds.update compresses [0]).short (by omega), next]
        by_cases full : h.buffered + 1 = hash.blockLen
        · rw [if_neg (by omega)] at distance
          rw [if_pos full, if_pos (Nat.zero_le _)]
          omega
        · rw [if_neg full]
          by_cases ahead : h.buffered ≤ hash.blockLen - hash.lengthLen
          · rw [if_pos ahead] at distance
            rw [if_pos (by omega)]
            omega
          · rw [if_neg ahead] at distance
            rw [if_neg (by omega)]
            omega
      obtain ⟨fuel, rfl⟩ : ∃ fuel', fuel = fuel' + 1 := ⟨fuel - 1, by omega⟩
      obtain ⟨h', ran, reached⟩ := ih later closer (Nat.le_of_succ_le_succ enough)
      refine ⟨h', ?_, ?_⟩
      · rw [Hasher.padZeros.eq_def, if_neg before]
        exact ran
      · rwa [List.append_assoc, List.singleton_append, ← List.replicate_succ] at reached

/-- The loop does not look at the first state. -/
theorem padZeros_initial (s : σ) (fuel : Nat) (h : Hasher σ) :
    Hasher.padZeros { hash with initial := s } compressBlocks fuel h = Hasher.padZeros hash compressBlocks fuel h := by
  induction fuel generalizing h with
  | zero => rfl
  | succ fuel ih =>
      rw [Hasher.padZeros, Hasher.padZeros, ih]
      rfl

/-- It ends whatever the blocks so far were compressed to: such a state may as well be the
    first one. -/
theorem padZeros_ends (compresses : Compresses hash compressBlocks) (room : h.buffer.length = hash.blockLen)
    (short : h.buffered < hash.blockLen) : (Hasher.padZeros hash compressBlocks (hash.blockLen - 1) h).isSome := by
  have holds : h.Holds { hash with initial := h.state } (h.buffer.take h.buffered) :=
    ⟨room, short, [], dvd_zero _, rfl, (BlockHash.fold_nil _ _).symm⟩
  have below := Nat.mod_lt (hash.blockLen - hash.lengthLen + (hash.blockLen - h.buffered)) hash.positive
  have enough : (hash.blockLen - hash.lengthLen + (hash.blockLen - h.buffered)) % hash.blockLen ≤ hash.blockLen - 1 := by
    omega
  obtain ⟨h', ran, -⟩ := @Holds.padZeros _ { hash with initial := h.state } compressBlocks h _ compresses holds _
    (hash.blockLen - 1) rfl enough
  rw [← padZeros_initial h.state, ran, Option.isSome_some]

/-- Nothing is buffered of whole blocks. -/
theorem Holds.state_eq (holds : h.Holds hash seen) (whole : hash.blockLen ∣ seen.length) :
    h.state = hash.fold hash.initial seen := by
  have empty := holds.buffered_eq
  rw [Nat.mod_eq_zero_of_dvd whole] at empty
  obtain ⟨-, -, front, -, parts, state⟩ := holds
  rw [empty, List.take_zero, List.append_nil] at parts
  rw [parts, state]

/-- Finishing gives the digest of what was taken, whatever the fuel from a block on. -/
theorem Holds.finalize (compresses : Compresses hash compressBlocks) (holds : h.Holds hash seen)
    (length : h.length = seen.length % 256 ^ hash.lengthLen) {fuel : Nat} (enough : hash.blockLen ≤ fuel + 1) :
    Hasher.finalize hash compressBlocks fuel h = some (hash.digest seen) := by
  have marked := (holds.update compresses [0x80]).count
    (((h.update hash compressBlocks [0x80]).length + (256 ^ hash.lengthLen - 1)) % 256 ^ hash.lengthLen)
  have level := (holds.update compresses [0x80]).buffered_eq
  rw [List.length_append, List.length_singleton] at level
  have distance : hash.zeros seen.length = (hash.blockLen - hash.lengthLen +
      (hash.blockLen - (h.update hash compressBlocks [0x80]).buffered)) % hash.blockLen := by
    rw [level, BlockHash.zeros]
  have below : hash.zeros seen.length < hash.blockLen := Nat.mod_lt _ hash.positive
  obtain ⟨h', ran, padded⟩ := marked.padZeros compresses distance (by omega : hash.zeros seen.length ≤ fuel)
  have bits : Bytes.be hash.lengthLen (h.length * 8 % 256 ^ hash.lengthLen) = Bytes.be hash.lengthLen (8 * seen.length) := by
    rw [length, Nat.mod_mul_mod, Nat.mul_comm, Bytes.be_mod]
  have finished := padded.update compresses (Bytes.be hash.lengthLen (h.length * 8 % 256 ^ hash.lengthLen))
  rw [bits] at finished
  have ran' : Hasher.padZeros hash compressBlocks fuel ((h.update hash compressBlocks [0x80]).uncount hash) = some h' := ran
  rw [Hasher.finalize]
  simp only [ran', Option.bind_eq_bind, Option.bind_some]
  rw [bits, finished.state_eq (hash.dvd_length_pad seen)]
  rfl

/-- Hashers reached by taking data piece by piece. -/
theorem Holds.updates (compresses : Compresses hash compressBlocks) (holds : h.Holds hash seen)
    (length : h.length = seen.length % 256 ^ hash.lengthLen) (pieces : List Bytes) :
    (pieces.foldl (Hasher.update hash compressBlocks) h).Holds hash (seen ++ pieces.flatten) ∧
      (pieces.foldl (Hasher.update hash compressBlocks) h).length =
        (seen ++ pieces.flatten).length % 256 ^ hash.lengthLen := by
  induction pieces generalizing h seen with
  | nil => simpa using ⟨holds, length⟩
  | cons piece rest ih =>
      have next : (h.update hash compressBlocks piece).length = (seen ++ piece).length % 256 ^ hash.lengthLen := by
        rw [update_length, length, Nat.mod_add_mod, List.length_append]
      have reached := ih (holds.update compresses piece) next
      rwa [List.append_assoc] at reached

/-- Any way of cutting a message gives its digest. -/
theorem finalize_updates (compresses : Compresses hash compressBlocks) (pieces : List Bytes) {fuel : Nat}
    (enough : hash.blockLen ≤ fuel + 1) :
    Hasher.finalize hash compressBlocks fuel (pieces.foldl (Hasher.update hash compressBlocks) (new hash)) =
      some (hash.digest pieces.flatten) := by
  have start : (new hash).length = ([] : Bytes).length % 256 ^ hash.lengthLen := (Nat.zero_mod _).symm
  obtain ⟨holds, length⟩ := Holds.updates compresses new_holds start pieces
  exact holds.finalize compresses length enough

end Runs

end Hasher

end Blindplane.Lib
