import Blindplane.Crypto.Argon2.Fill
import Blindplane.Crypto.Argon2.Rfc7693
import Mathlib.Logic.Function.Iterate

/-! # Argon2id

The parameters, the variable-length hash and the driving function, which computes the tag of
RFC 9106 for one lane, no secret and no associated data.
-/

namespace Blindplane.Crypto.Argon2

open Lib Arithmetic

section Routines

def BLOCK_LEN : Nat := 1024

/-- Argon2 parameters that are not the password or salt. -/
structure Argon2Params where
  memoryKib : UInt32
  passes : UInt32
  outputLen : Nat
  deriving DecidableEq, Repr

def Argon2Params.default : Argon2Params := { memoryKib := 65536, passes := 3, outputLen := 32 }

/-- Argon2id parameter validation failure. -/
structure InvalidParams where
  deriving DecidableEq, Repr

/-- The loop of `hashPrime`: each step hashes the previous 64-byte block and emits 32 bytes,
    until at most one full block is left. -/
def chain : (fuel : Nat) → (block : Bytes) → (written : Nat) → (out : Bytes) → Option (Bytes × Nat × Bytes)
  | 0, _, _, _ => none
  | fuel + 1, block, written, out => do
      let left ← sub 64 out.length written
      if 64 < left then
        let next ← Blake2b.hash 64 [block]
        let stop ← add 64 written 32
        let out ← copyFromSlice out written stop (← slice next 0 32)
        chain fuel next stop out
      else some (block, written, out)

/-- The variable-length hash, over an output buffer. -/
def hashPrime (input out : Bytes) : Option Bytes :=
  if out.length ≤ 64 then Blake2b.hash out.length [Bytes.le 4 out.length, input]
  else do
    let block ← Blake2b.hash 64 [Bytes.le 4 out.length, input]
    let out ← copyFromSlice out 0 32 (← slice block 0 32)
    let (block, written, out) ← chain out.length block 32 out
    let tail ← sub 64 out.length written
    let digest ← Blake2b.hash tail [block]
    copyFromSlice out written out.length digest

/-- The first two blocks come straight from `h0`. -/
def firstBlock (h0 : Bytes) (memory : List Block) (index : Nat) : Option (List Block) := do
  let input := h0 ++ Bytes.le 4 index ++ Bytes.le 4 0
  let bytes ← hashPrime input (List.replicate BLOCK_LEN 0)
  store memory index (← bytesToBlock bytes)

/-- What `h0` binds: every parameter, so that changing any of them changes the output. -/
def h0Input (password salt : Bytes) (params : Argon2Params) : Bytes :=
  Bytes.le 4 1 ++ Bytes.le 4 params.outputLen ++ Bytes.le 4 params.memoryKib.toNat ++ Bytes.le 4 params.passes.toNat ++
    Bytes.le 4 0x13 ++ Bytes.le 4 2 ++ Bytes.le 4 password.length ++ password ++ Bytes.le 4 salt.length ++ salt ++
    Bytes.le 4 0 ++ Bytes.le 4 0

/-- Derive a key from a password, with a single lane. -/
def argon2id (password salt : Bytes) (params : Argon2Params) : Option (Except InvalidParams Bytes) :=
  if params.memoryKib < 8 ∨ params.passes = 0 ∨ params.outputLen < 4 ∨ salt.length < 8 then some (.error {})
  else do
    let blocks := params.memoryKib.toNat / 4 * 4
    let segmentLength := blocks / 4
    let h0 ← Blake2b.hash 64 [h0Input password salt params]
    let memory := List.replicate blocks (blockFrom [])
    let memory ← (List.range 2).foldlM (firstBlock h0) memory
    let memory ← fill params.passes.toNat blocks segmentLength blocks memory
    let finalBlock ← memory[← sub 64 blocks 1]?
    let out ← hashPrime (blockToBytes finalBlock) (List.replicate params.outputLen 0)
    return .ok out

end Routines

namespace Rfc9106

open Rfc7693

/-- Block `V_(i+1)` of the variable-length hash. -/
def V (first : Bytes) (i : Nat) : Bytes := (digest 64)^[i] first

/-- `H'` of `length` bytes. -/
def variableHash (length : Nat) (input : Bytes) : Bytes :=
  let counted := Bytes.le 4 length ++ input
  if length ≤ 64 then digest length counted
  else
    let r := (length + 31) / 32 - 2
    let first := digest 64 counted
    ((List.range r).flatMap fun i => (V first i).take 32) ++ digest (length - 32 * r) (V first (r - 1))

/-- `H_0`, for one lane, version `0x13` and type 2. -/
def H0 (password salt : Bytes) (memory passes length : Nat) : Bytes :=
  digest 64 (Bytes.le 4 1 ++ Bytes.le 4 length ++ Bytes.le 4 memory ++ Bytes.le 4 passes ++ Bytes.le 4 0x13 ++
    Bytes.le 4 2 ++ Bytes.le 4 password.length ++ password ++ Bytes.le 4 salt.length ++ salt ++ Bytes.le 4 0 ++
    Bytes.le 4 0)

/-- The tag: a pass has as many blocks as the memory, rounded down to whole segments. -/
def tag (password salt : Bytes) (memory passes length : Nat) : Bytes :=
  let shape : Shape := { segment := memory / 4, passes }
  let h0 := H0 password salt memory passes length
  let first := load (variableHash 1024 (h0 ++ Bytes.le 4 0 ++ Bytes.le 4 0))
  let second := load (variableHash 1024 (h0 ++ Bytes.le 4 1 ++ Bytes.le 4 0))
  let count := shape.columns * passes
  variableHash length (bytes ((shape.blocks first second count).getD (count - 1) (blockFrom [])))

end Rfc9106

section Log

/-- `chain` with a record of its writes: where they start, and how many bytes they are. -/
def chainLogged : (fuel : Nat) → (block : Bytes) → (written : Nat) → (out : Bytes) →
    Option ((Bytes × Nat × Bytes) × List (Nat × Nat))
  | 0, _, _, _ => none
  | fuel + 1, block, written, out => do
      let left ← sub 64 out.length written
      if 64 < left then
        let next ← Blake2b.hash 64 [block]
        let stop ← add 64 written 32
        let out ← copyFromSlice out written stop (← slice next 0 32)
        let (last, writes) ← chainLogged fuel next stop out
        return (last, (written, 32) :: writes)
      else some ((block, written, out), [])

/-- `hashPrime` with a record of its writes, the final digest last. -/
def hashPrimeLogged (input out : Bytes) : Option (Bytes × List (Nat × Nat)) :=
  if out.length ≤ 64 then do
    let digest ← Blake2b.hash out.length [Bytes.le 4 out.length, input]
    return (digest, [(0, out.length)])
  else do
    let block ← Blake2b.hash 64 [Bytes.le 4 out.length, input]
    let out ← copyFromSlice out 0 32 (← slice block 0 32)
    let ((block, written, out), writes) ← chainLogged out.length block 32 out
    let tail ← sub 64 out.length written
    let digest ← Blake2b.hash tail [block]
    let out ← copyFromSlice out written out.length digest
    return (out, (0, 32) :: writes ++ [(written, tail)])

theorem chainLogged_fst (fuel : Nat) (block : Bytes) (written : Nat) (out : Bytes) :
    (chainLogged fuel block written out).map Prod.fst = chain fuel block written out := by
  induction fuel generalizing block written out with
  | zero => rfl
  | succ fuel ih =>
      rw [chainLogged, chain]
      simp only [Option.bind_eq_bind, Option.map_eq_bind, Option.bind_assoc]
      congr 1
      funext left
      split
      · simp only [← ih, Option.map_eq_bind, Option.bind_assoc, Option.pure_def, Option.bind_some, Function.comp_apply]
      · rfl

theorem hashPrimeLogged_fst (input out : Bytes) : (hashPrimeLogged input out).map Prod.fst = hashPrime input out := by
  rw [hashPrimeLogged, hashPrime]
  split
  · cases Blake2b.hash out.length [Bytes.le 4 out.length, input] <;> rfl
  · simp only [Option.bind_eq_bind, Option.map_eq_bind, ← chainLogged_fst, Option.bind_assoc, Option.pure_def,
      Option.bind_some, Function.comp_def, Option.bind_fun_some]

end Log

section VariableHash

open Rfc7693 Rfc9106

variable {input out first : Bytes}

/-- However it is cut, a message has the digest of the document. -/
theorem hash_eq_digest {outputLen : Nat} (positive : 1 ≤ outputLen) (few : outputLen ≤ 64) (pieces : List Bytes) :
    Blake2b.hash outputLen pieces = some (digest outputLen pieces.flatten) := by
  rw [Blake2b.hash_eq positive few, blake2b_eq]

theorem digest_length {outputLen : Nat} (few : outputLen ≤ 64) (message : Bytes) :
    (digest outputLen message).length = outputLen := by
  simp only [← blake2b_eq, blake2b, List.length_take, stateBytes_length]
  omega

theorem V_succ (first : Bytes) (i : Nat) : V first (i + 1) = digest 64 (V first i) :=
  Function.iterate_succ_apply' (digest 64) i first

theorem V_length (length : first.length = 64) (i : Nat) : (V first i).length = 64 := by
  cases i with
  | zero => exact length
  | succ i =>
      rw [V_succ]
      exact digest_length (Nat.le_refl 64) _

/-- The 32 bytes that block `i` and those before it emit. -/
def emitted (first : Bytes) (count : Nat) : Bytes := (List.range count).flatMap fun i => (V first i).take 32

theorem emitted_succ (first : Bytes) (count : Nat) :
    emitted first (count + 1) = emitted first count ++ (V first count).take 32 := by
  rw [emitted, List.range_succ, List.flatMap_append, List.flatMap_singleton, emitted]

theorem emitted_length (length : first.length = 64) (count : Nat) : (emitted first count).length = 32 * count := by
  induction count with
  | zero => rfl
  | succ count ih =>
      rw [emitted_succ, List.length_append, ih, List.length_take, V_length length]
      omega

/-- The front of a block goes behind what the blocks before it emit. -/
theorem copied_stride {k : Nat} (length : first.length = 64) (before : out.take (32 * k) = emitted first k)
    (room : 32 * k + 32 ≤ out.length) :
    ∃ out', copyFromSlice out (32 * k) (32 * k + 32) ((V first k).take 32) = some out' ∧
      out'.length = out.length ∧ out'.take (32 * (k + 1)) = emitted first (k + 1) := by
  have piece : ((V first k).take 32).length = 32 := by
    rw [List.length_take, V_length length]
    rfl
  have written := @take_copyAt _ out ((V first k).take 32) (32 * k) (by omega)
  rw [piece, before, ← emitted_succ] at written
  exact ⟨_, copyFromSlice_eq room (by rw [piece]), copyAt_length (by rw [piece]; exact room), written⟩

/-- The last digest goes behind what the blocks emit. -/
theorem copied_tail {digest : Bytes} {r : Nat} (before : out.take (32 * r) = emitted first r)
    (whole : 32 * r + digest.length = out.length) :
    copyFromSlice out (32 * r) out.length digest = some (emitted first r ++ digest) := by
  have written := @take_copyAt _ out digest (32 * r) (by omega)
  have kept : (copyAt out (32 * r) digest).length = out.length := copyAt_length (Nat.le_of_eq whole)
  rw [before, whole, ← kept, List.take_length] at written
  rw [copyFromSlice_eq (Nat.le_refl _) whole, written]

/-- A write of 32 bytes for each of some blocks. -/
def strides (first count : Nat) : List (Nat × Nat) := (List.range' first count).map fun i => (32 * i, 32)

/-- The bytes of some writes, in the order in which they are written. -/
def places (writes : List (Nat × Nat)) : List Nat := writes.flatMap fun (start, count) => List.range' start count

theorem places_append (front back : List (Nat × Nat)) : places (front ++ back) = places front ++ places back :=
  List.flatMap_append

theorem places_strides (r : Nat) : places (strides 0 r) = List.range (32 * r) := by
  induction r with
  | zero => rfl
  | succ r ih =>
      have next : strides 0 (r + 1) = strides 0 r ++ [(32 * r, 32)] := by
        simp [strides, List.range'_concat]
      rw [next, places_append, ih, Nat.mul_succ, ← range_append]
      simp [places]

/-- The loop ends with at most a block left, and has written what the blocks so far emit. -/
theorem chainLogged_eq {fuel k : Nat} (length : first.length = 64) (small : out.length < 2 ^ 64)
    (before : out.take (32 * (k + 1)) = emitted first (k + 1)) (more : 32 * (k + 1) + 32 < out.length)
    (enough : out.length ≤ 32 * (k + 1) + 64 + 32 * fuel) :
    ∃ r out', 32 * r + 32 < out.length ∧ out.length ≤ 32 * r + 64 ∧ k < r ∧
      chainLogged (fuel + 1) (V first k) (32 * (k + 1)) out =
        some ((V first (r - 1), 32 * r, out'), strides (k + 1) (r - (k + 1))) ∧
      out'.length = out.length ∧ out'.take (32 * r) = emitted first r := by
  induction fuel generalizing k out with
  | zero =>
      refine ⟨k + 1, out, more, by omega, Nat.lt_succ_self k, ?_, rfl, before⟩
      have short : ¬ 64 < out.length - 32 * (k + 1) := by omega
      rw [chainLogged, sub_eq small (by omega)]
      simp only [Option.pure_def, Option.bind_eq_bind, Option.bind_some, if_neg short, Nat.add_sub_cancel, Nat.sub_self]
      rfl
  | succ fuel ih =>
      rw [chainLogged, sub_eq small (by omega)]
      by_cases long : 64 < out.length - 32 * (k + 1)
      · have next : Blake2b.hash 64 [V first k] = some (V first (k + 1)) := by
          rw [hash_eq_digest (by decide) (by decide), V_succ, List.flatten_singleton]
        have halved : slice (V first (k + 1)) 0 32 = some ((V first (k + 1)).take 32) :=
          slice_zero (by rw [V_length length]; decide)
        obtain ⟨out', copied, kept, written⟩ := copied_stride length before (by omega)
        obtain ⟨r, last, above, below, passed, ran, size, final⟩ :=
          @ih out' (k + 1) (by omega) written (by omega) (by omega)
        have writes : strides (k + 1) (r - (k + 1)) = (32 * (k + 1), 32) :: strides (k + 1 + 1) (r - (k + 1 + 1)) := by
          have one : r - (k + 1) = r - (k + 1 + 1) + 1 := by omega
          rw [strides, one, List.range'_succ, List.map_cons, ← strides]
        refine ⟨r, last, by omega, by omega, by omega, ?_, size.trans kept, final⟩
        simp only [Option.pure_def, Option.bind_eq_bind, Option.bind_some, if_pos long, next]
        rw [add_eq (by omega), halved]
        simp only [Option.pure_def, Option.bind_some, copied]
        rw [← Nat.mul_succ, ran, writes]
        rfl
      · refine ⟨k + 1, out, more, by omega, Nat.lt_succ_self k, ?_, rfl, before⟩
        simp only [Option.pure_def, Option.bind_eq_bind, Option.bind_some, if_neg long, Nat.add_sub_cancel, Nat.sub_self]
        rfl

/-- Where the variable-length hash writes: 32 bytes for each block, then the final digest. -/
def writesOf (length : Nat) : List (Nat × Nat) :=
  if length ≤ 64 then [(0, length)]
  else
    let r := (length + 31) / 32 - 2
    strides 0 r ++ [(32 * r, length - 32 * r)]

theorem places_writesOf (length : Nat) : places (writesOf length) = List.range length := by
  rw [writesOf]
  split
  · simp [places, List.range_eq_range']
  · have inside : 32 * ((length + 31) / 32 - 2) ≤ length := by omega
    have rest : 32 * ((length + 31) / 32 - 2) + (length - 32 * ((length + 31) / 32 - 2)) = length :=
      Nat.add_sub_cancel' inside
    rw [places_append, places_strides]
    conv_rhs => rw [← rest, ← range_append]
    simp [places]

/-- The variable-length hash is that of RFC 9106, for every output length. -/
theorem hashPrimeLogged_eq (positive : 1 ≤ out.length) (small : out.length < 2 ^ 64) :
    hashPrimeLogged input out = some (variableHash out.length input, writesOf out.length) ∧
      (variableHash out.length input).length = out.length := by
  by_cases few : out.length ≤ 64
  · rw [hashPrimeLogged, if_pos few, hash_eq_digest positive few]
    simp only [variableHash, writesOf, if_pos few, List.flatten_cons, List.flatten_nil, List.append_nil]
    exact ⟨rfl, digest_length few _⟩
  · obtain ⟨first, efirst⟩ : ∃ first, first = digest 64 (Bytes.le 4 out.length ++ input) := ⟨_, rfl⟩
    have length : first.length = 64 := by
      rw [efirst]
      exact digest_length (Nat.le_refl 64) _
    have start : Blake2b.hash 64 [Bytes.le 4 out.length, input] = some first := by
      rw [hash_eq_digest (by decide) (by decide), efirst, List.flatten_cons, List.flatten_singleton]
    obtain ⟨begun, copied, kept, before⟩ := @copied_stride out first 0 length rfl (by omega)
    have head : copyFromSlice out 0 32 (first.take 32) = some begun := copied
    obtain ⟨fuel, efuel⟩ : ∃ fuel, out.length = fuel + 1 := ⟨out.length - 1, by omega⟩
    obtain ⟨r, last, above, below, some_blocks, ran, size, final⟩ :=
      @chainLogged_eq begun first fuel 0 length (by omega) before (by omega) (by omega)
    have blocks : (out.length + 31) / 32 - 2 = r := by omega
    have rest : Blake2b.hash (out.length - 32 * r) [V first (r - 1)] = some (digest (out.length - 32 * r) (V first (r - 1))) := by
      rw [hash_eq_digest (by omega) (by omega), List.flatten_singleton]
    have tail : (digest (out.length - 32 * r) (V first (r - 1))).length = out.length - 32 * r := digest_length (by omega) _
    have finished := copied_tail final
      (show 32 * r + (digest (out.length - 32 * r) (V first (r - 1))).length = last.length by omega)
    rw [size, kept] at finished
    have result : variableHash out.length input = emitted first r ++ digest (out.length - 32 * r) (V first (r - 1)) := by
      simp only [variableHash, if_neg few, blocks, ← efirst]
      rfl
    have writes : writesOf out.length = (0, 32) :: strides (0 + 1) (r - (0 + 1)) ++ [(32 * r, out.length - 32 * r)] := by
      obtain ⟨others, rfl⟩ := Nat.exists_eq_succ_of_ne_zero (Nat.ne_of_gt some_blocks)
      simp only [writesOf, if_neg few, blocks]
      rfl
    constructor
    · rw [hashPrimeLogged, if_neg few, start, result, writes]
      simp only [Option.bind_eq_bind, Option.bind_some]
      rw [slice_zero (by omega)]
      simp only [kept, Option.bind_some, head]
      have ran' : chainLogged out.length first 32 begun =
          some ((V first (r - 1), 32 * r, last), strides (0 + 1) (r - (0 + 1))) := by
        rw [efuel]
        exact ran
      simp only [ran', Option.bind_some]
      rw [sub_eq (by omega) (by omega)]
      simp only [size, kept, Option.pure_def, Option.bind_some, rest, finished]
    · rw [result, List.length_append, emitted_length length, tail]
      omega

theorem hashPrime_eq (positive : 1 ≤ out.length) (small : out.length < 2 ^ 64) :
    hashPrime input out = some (variableHash out.length input) ∧ (variableHash out.length input).length = out.length := by
  obtain ⟨ran, length⟩ := @hashPrimeLogged_eq input out positive small
  rw [← hashPrimeLogged_fst, ran]
  exact ⟨rfl, length⟩

/-- However a message is cut, its BLAKE2b digest of 1 to 64 bytes is that of RFC 7693, and the
    compressions are those of its blocks: each once, with the bytes up to its end, the last one
    flagged. The variable-length hash is that of RFC 9106. It writes every byte of its output
    once, the last of them by a digest of 1 to 64 bytes, or 33 to 64 when there is a chain. -/
theorem hashes_exact :
    (∀ outputLen message, blake2b outputLen message = digest outputLen message) ∧
    (∀ outputLen, 1 ≤ outputLen → outputLen ≤ 64 → ∀ pieces : List Bytes,
      Blake2b.hash outputLen pieces = some (digest outputLen pieces.flatten) ∧
      Blake2b.hashLogged outputLen pieces = some (digest outputLen pieces.flatten, calls pieces.flatten)) ∧
    (∀ message, ((calls message).map Call.block).flatten =
      message ++ List.replicate (128 * blockCount message.length - message.length) 0) ∧
    ∀ input out : Bytes, 1 ≤ out.length → out.length < 2 ^ 32 →
      hashPrime input out = some (variableHash out.length input) ∧
      ∃ earlier start count,
        hashPrimeLogged input out = some (variableHash out.length input, earlier ++ [(start, count)]) ∧
        places (earlier ++ [(start, count)]) = List.range out.length ∧
        1 ≤ count ∧ count ≤ 64 ∧ (64 < out.length → 33 ≤ count) := by
  refine ⟨blake2b_eq, ?_, flatten_calls, ?_⟩
  · intro outputLen positive few pieces
    refine ⟨hash_eq_digest positive few pieces, ?_⟩
    rw [← blake2b_eq]
    exact Blake2b.hashLogged_eq positive few pieces
  · intro input out positive small
    have wide : out.length < 2 ^ 64 := by omega
    obtain ⟨ran, -⟩ := @hashPrimeLogged_eq input out positive wide
    have cover := places_writesOf out.length
    refine ⟨(hashPrime_eq positive wide).1, ?_⟩
    by_cases few : out.length ≤ 64
    · rw [writesOf, if_pos few] at ran cover
      exact ⟨[], 0, out.length, ran, cover, positive, few, fun long => absurd few (Nat.not_le_of_lt long)⟩
    · rw [writesOf, if_neg few] at ran cover
      exact ⟨_, _, _, ran, cover, by omega, by omega, fun _ => by omega⟩

end VariableHash

section Tag

open Rfc7693 Rfc9106

variable {password salt : Bytes} {params : Argon2Params}

/-- The parameters are in range. -/
structure Valid (salt : Bytes) (params : Argon2Params) : Prop where
  memory : 8 ≤ params.memoryKib.toNat
  passes : 1 ≤ params.passes.toNat
  output : 4 ≤ params.outputLen
  salted : 8 ≤ salt.length

theorem valid_iff :
    Valid salt params ↔
      ¬ (params.memoryKib < 8 ∨ params.passes = 0 ∨ params.outputLen < 4 ∨ salt.length < 8) := by
  have eight : (8 : UInt32).toNat = 8 := rfl
  have zero : (0 : UInt32).toNat = 0 := rfl
  rw [UInt32.lt_iff_toNat_lt, ← UInt32.toNat_inj, eight, zero]
  constructor
  · rintro ⟨memory, passes, output, salted⟩
    omega
  · intro fine
    exact ⟨by omega, by omega, by omega, by omega⟩

theorem firstBlock_eq (h0 : Bytes) {memory : List Block} {index : Nat} (inside : index < memory.length) :
    firstBlock h0 memory index =
      some (memory.set index (load (variableHash 1024 (h0 ++ Bytes.le 4 index ++ Bytes.le 4 0)))) := by
  have room : (List.replicate BLOCK_LEN (0 : UInt8)).length = 1024 := List.length_replicate
  obtain ⟨hashed, length⟩ := @hashPrime_eq (h0 ++ Bytes.le 4 index ++ Bytes.le 4 0) (List.replicate BLOCK_LEN 0)
    (by rw [room]; decide) (by rw [room]; decide)
  rw [room] at hashed length
  rw [firstBlock, hashed]
  simp only [Option.bind_eq_bind, Option.bind_some, bytesToBlock_eq length, store_eq inside]

/-- A memory whose first two blocks are there. -/
theorem stores_two {shape : Shape} (wide : 2 ≤ shape.segment) (first second : Block) {memory : List Block}
    (size : memory.length = shape.columns) : Stores shape [first, second] ((memory.set 0 first).set 1 second) := by
  have room : 8 ≤ memory.length := by
    rw [size, Shape.columns]
    omega
  constructor
  · rw [List.length_set, List.length_set, size]
  · intro k made _
    have below : k < 2 := made
    rw [Nat.mod_eq_of_lt (by omega : k < shape.columns)]
    cases k with
    | zero =>
        have inside : 0 < memory.length := by omega
        simp [inside]
    | succ k =>
        have one : k = 0 := by omega
        have inside : 1 < memory.length := by omega
        simp [one, inside]

/-- The first two blocks are made of the initial hash. -/
theorem firstBlocks_eq (h0 : Bytes) {memory : List Block} (room : 2 ≤ memory.length) :
    (List.range 2).foldlM (firstBlock h0) memory =
      some ((memory.set 0 (load (variableHash 1024 (h0 ++ Bytes.le 4 0 ++ Bytes.le 4 0)))).set 1
        (load (variableHash 1024 (h0 ++ Bytes.le 4 1 ++ Bytes.le 4 0)))) := by
  have two : List.range 2 = [0, 1] := rfl
  rw [two, List.foldlM_cons, firstBlock_eq h0 (by omega)]
  simp only [Option.bind_eq_bind, Option.bind_some, List.foldlM_cons, List.foldlM_nil]
  rw [firstBlock_eq h0 (by rw [List.length_set]; omega)]
  rfl

/-- The last block of all is in the last place of the memory. -/
theorem last_place {columns passes : Nat} (wide : 1 ≤ columns) (some_passes : 1 ≤ passes) :
    (columns * passes - 1) % columns = columns - 1 := by
  obtain ⟨before, rfl⟩ := Nat.exists_eq_succ_of_ne_zero (Nat.ne_of_gt some_passes)
  have position : columns * before.succ - 1 = columns * before + (columns - 1) := by
    rw [Nat.mul_succ]
    omega
  rw [position, Nat.mul_add_mod, Nat.mod_eq_of_lt (by omega)]

/-- Parameters in range give the tag of RFC 9106. -/
theorem argon2id_eq (valid : Valid salt params) (short : params.outputLen < 2 ^ 64) :
    argon2id password salt params =
      some (.ok (tag password salt params.memoryKib.toNat params.passes.toNat params.outputLen)) := by
  obtain ⟨shape, eshape⟩ : ∃ shape : Shape,
    shape = { segment := params.memoryKib.toNat / 4, passes := params.passes.toNat } := ⟨_, rfl⟩
  obtain ⟨memory_range, passes_range, output_range, salted⟩ := valid
  have narrow_memory : params.memoryKib.toNat < 2 ^ 32 := params.memoryKib.toNat_lt
  have wide : 2 ≤ shape.segment := by
    rw [eshape]
    show 2 ≤ params.memoryKib.toNat / 4
    omega
  have narrow : 4 * shape.segment < 2 ^ 32 := by
    rw [eshape]
    show 4 * (params.memoryKib.toNat / 4) < 2 ^ 32
    omega
  have columns : params.memoryKib.toNat / 4 * 4 = shape.columns := by rw [Shape.columns, eshape, Nat.mul_comm]
  have segment : shape.columns / 4 = shape.segment := Nat.mul_div_cancel_left _ (by decide)
  have passes : params.passes.toNat = shape.passes := by rw [eshape]
  have big : 8 ≤ shape.columns := by
    rw [Shape.columns]
    omega
  obtain ⟨h0, eh0⟩ : ∃ h0, h0 = H0 password salt params.memoryKib.toNat params.passes.toNat params.outputLen := ⟨_, rfl⟩
  have hashed : Blake2b.hash 64 [h0Input password salt params] = some h0 := by
    rw [hash_eq_digest (by decide) (by decide), eh0, List.flatten_singleton]
    rfl
  obtain ⟨first, efirst⟩ : ∃ first, first = load (variableHash 1024 (h0 ++ Bytes.le 4 0 ++ Bytes.le 4 0)) := ⟨_, rfl⟩
  obtain ⟨second, esecond⟩ : ∃ second, second = load (variableHash 1024 (h0 ++ Bytes.le 4 1 ++ Bytes.le 4 0)) := ⟨_, rfl⟩
  have size : (List.replicate shape.columns (blockFrom [])).length = shape.columns := List.length_replicate
  have begun := firstBlocks_eq h0 (show 2 ≤ (List.replicate shape.columns (blockFrom [])).length by omega)
  rw [← efirst, ← esecond] at begun
  obtain ⟨memory, filled, stores⟩ := fill_some wide narrow (passes ▸ passes_range) (stores_two wide first second size)
  obtain ⟨count, ecount⟩ : ∃ count, count = shape.columns * shape.passes := ⟨_, rfl⟩
  have some_blocks : shape.columns ≤ count := by
    rw [ecount]
    exact Nat.le_mul_of_pos_right _ (passes ▸ passes_range)
  have length : (shape.blocks first second count).length = count := blocks_length first second (by omega)
  have last : memory[shape.columns - 1]? = some ((shape.blocks first second count).getD (count - 1) (blockFrom [])) := by
    rw [← ecount] at stores
    have place : (count - 1) % shape.columns = shape.columns - 1 := by
      rw [ecount]
      exact last_place (by omega) (passes ▸ passes_range)
    have read := stores.read (k := count - 1) (by omega) (by omega)
    rwa [place] at read
  have buffer : (List.replicate params.outputLen (0 : UInt8)).length = params.outputLen := List.length_replicate
  obtain ⟨tagged, -⟩ := @hashPrime_eq (bytes ((shape.blocks first second count).getD (count - 1) (blockFrom [])))
    (List.replicate params.outputLen 0) (by rw [buffer]; omega) (by rw [buffer]; omega)
  rw [buffer] at tagged
  have result : tag password salt params.memoryKib.toNat params.passes.toNat params.outputLen =
      variableHash params.outputLen (bytes ((shape.blocks first second count).getD (count - 1) (blockFrom []))) := by
    rw [tag, ← eh0, ← efirst, ← esecond, ← eshape, passes, ← ecount]
  rw [result, argon2id, if_neg (valid_iff.mp ⟨memory_range, passes_range, output_range, salted⟩)]
  simp only [hashed, Option.bind_eq_bind, Option.bind_some, columns, segment, passes, begun, filled]
  rw [sub_eq (by omega) (by omega)]
  simp only [Option.pure_def, Option.bind_some, last, blockToBytes_eq, tagged]

theorem tag_length (password salt : Bytes) (memory passes : Nat) {length : Nat} (positive : 1 ≤ length)
    (short : length < 2 ^ 64) : (tag password salt memory passes length).length = length := by
  have buffer : (List.replicate length (0 : UInt8)).length = length := List.length_replicate
  have hashed (input : Bytes) := (@hashPrime_eq input (List.replicate length 0) (by rw [buffer]; exact positive)
    (by rw [buffer]; omega)).2
  simp only [buffer] at hashed
  exact hashed _

/-- Argon2id ends for every password, salt and parameters, and is that of RFC 9106 where the
    parameters are in range. -/
theorem argon2id_exact (password salt : Bytes) (params : Argon2Params) (short : params.outputLen < 2 ^ 32) :
    (8 ≤ params.memoryKib.toNat → 1 ≤ params.passes.toNat → 4 ≤ params.outputLen → 8 ≤ salt.length →
      argon2id password salt params =
        some (.ok (tag password salt params.memoryKib.toNat params.passes.toNat params.outputLen))) ∧
    (argon2id password salt params = some (.error {}) ↔
      params.memoryKib.toNat < 8 ∨ params.passes.toNat = 0 ∨ params.outputLen < 4 ∨ salt.length < 8) := by
  constructor
  · intro memory passes output salted
    exact argon2id_eq ⟨memory, passes, output, salted⟩ (by omega)
  · have valid := @valid_iff salt params
    constructor
    · intro refused
      by_contra fine
      have inside : Valid salt params := ⟨by omega, by omega, by omega, by omega⟩
      rw [argon2id_eq inside (by omega)] at refused
      cases refused
    · intro outside
      have invalid : ¬ Valid salt params := by
        rintro ⟨memory, passes, output, salted⟩
        omega
      exact if_pos (not_not.mp (mt valid.mpr invalid))

theorem argon2id_exact_least :
    argon2id [] (List.replicate 8 0) { memoryKib := 8, passes := 1, outputLen := 4 } =
      some (.ok (tag [] (List.replicate 8 0) 8 1 4)) :=
  (argon2id_exact [] (List.replicate 8 0) { memoryKib := 8, passes := 1, outputLen := 4 } (by decide)).1 (by decide) (by decide)
    (by decide) (by decide)

end Tag

end Blindplane.Crypto.Argon2
