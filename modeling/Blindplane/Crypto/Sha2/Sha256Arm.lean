import Blindplane.Crypto.Sha2.Instructions

/-! # SHA-256 on the ARMv8 extensions

Four rounds to a step, the state in two registers and the schedule woven into the steps.
After each step the registers hold the words the portable loop has after its four rounds,
and the message registers the next sixteen words of its schedule.
-/

namespace Blindplane.Crypto.Sha2

open Lib Simd

namespace Arm256

/-- The registers of the loop; the message registers are named from the one whose turn it is. -/
structure Registers where
  abcd : Register
  efgh : Register
  m0 : Register
  m1 : Register
  m2 : Register
  m3 : Register

/-- Four rounds with the schedule update woven through them. -/
def round (r : Registers) (k : Nat) : Registers :=
  let wk := vaddq_u32 r.m0 (vld1q_u32 (K256.drop (k * 4)))
  let scheduled := vsha256su0q_u32 r.m0 r.m1
  { abcd := vsha256hq_u32 r.abcd r.efgh wk
    efgh := vsha256h2q_u32 r.efgh r.abcd wk
    m0 := r.m1
    m1 := r.m2
    m2 := r.m3
    m3 := vsha256su1q_u32 scheduled r.m2 r.m3 }

/-- Four of the last rounds, which use the schedule without extending it. -/
def finalRound (r : Registers) (k : Nat) : Registers :=
  let wk := vaddq_u32 r.m0 (vld1q_u32 (K256.drop (k * 4)))
  { abcd := vsha256hq_u32 r.abcd r.efgh wk
    efgh := vsha256h2q_u32 r.efgh r.abcd wk
    m0 := r.m1
    m1 := r.m2
    m2 := r.m3
    m3 := r.m0 }

/-- The digest is big-endian; NEON loads are little-endian. -/
def loadMessage (block : Bytes) (i : Nat) : Register := vrevq_u8 4 (vld1q ((block.drop (i * 16)).take 16))

/-- One block. -/
def block (state : Register × Register) (data : Bytes) : Register × Register :=
  let (abcd, efgh) := state
  let r : Registers :=
    { abcd, efgh, m0 := loadMessage data 0, m1 := loadMessage data 1, m2 := loadMessage data 2, m3 := loadMessage data 3 }
  let r := (List.range 12).foldl round r
  let r := (List.range' 12 4).foldl finalRound r
  (vaddq_u32 r.abcd abcd, vaddq_u32 r.efgh efgh)

/-- Compress whole 64-byte blocks. -/
def compress (state : State 32) (data : Bytes) : State 32 :=
  let abcd := vld1q_u32 (state.words.take 4)
  let efgh := vld1q_u32 (state.words.drop 4)
  let (abcd, efgh) := (chunksExact 64 data).foldl block (abcd, efgh)
  { a := lane 32 abcd 0, b := lane 32 abcd 1, c := lane 32 abcd 2, d := lane 32 abcd 3
    e := lane 32 efgh 0, f := lane 32 efgh 1, g := lane 32 efgh 2, h := lane 32 efgh 3 }

section Rounds

/-- Two registers that hold the words of a state. -/
structure Represents (s : State 32) (abcd efgh : Register) : Prop where
  a : lane 32 abcd 0 = s.a
  b : lane 32 abcd 1 = s.b
  c : lane 32 abcd 2 = s.c
  d : lane 32 abcd 3 = s.d
  e : lane 32 efgh 0 = s.e
  f : lane 32 efgh 1 = s.f
  g : lane 32 efgh 2 = s.g
  h : lane 32 efgh 3 = s.h

/-- One pass is one round. -/
theorem Represents.pass {s : State 32} {r : Register × Register} (represents : Represents s r.1 r.2) {wk : Register}
    {e : Nat} {k word : BitVec 32} (sum : lane 32 wk e = word + k) :
    Represents (Sha2.round SHA256 s k word) (sha256Pass wk r e).1 (sha256Pass wk r e).2 := by
  obtain ⟨x, y⟩ := r
  obtain ⟨ha, hb, hc, hd, he, hf, hg, hh⟩ := represents
  have t1 : lane 32 y 3 + bigSigma (6, 11, 25) (lane 32 y 0) + shaChoose (lane 32 y 0) (lane 32 y 1) (lane 32 y 2) +
      lane 32 wk e = s.h + bigSigma SHA256.bigSigma1 s.e + ch s.e s.f s.g + k + word := by
    rw [sum, shaChoose_eq, he, hf, hg, hh, BitVec.add_comm word, ← BitVec.add_assoc]
    rfl
  constructor
  · refine (lane_rotateIn_zero x _).trans ?_
    rw [t1, shaMajority_eq, ha, hb, hc, BitVec.add_assoc]
    rfl
  · exact (lane_rotateIn_succ x _ (by decide)).trans ha
  · exact (lane_rotateIn_succ x _ (by decide)).trans hb
  · exact (lane_rotateIn_succ x _ (by decide)).trans hc
  · refine (lane_rotateIn_zero y _).trans ?_
    rw [t1, hd, BitVec.add_comm]
    rfl
  · exact (lane_rotateIn_succ y _ (by decide)).trans he
  · exact (lane_rotateIn_succ y _ (by decide)).trans hf
  · exact (lane_rotateIn_succ y _ (by decide)).trans hg

/-- The words `4 * t` to `4 * t + 3` of a list. -/
def Window (words : List (BitVec 32)) (t : Nat) (m : Register) : Prop :=
  ∀ i < 4, lane 32 m i = words.getD (4 * t + i) 0

/-- Rounds `4 * t` to `4 * t + 3`. -/
def fourRounds (words : List (BitVec 32)) (s : State 32) (t : Nat) : State 32 :=
  (List.range 4).foldl (fun s i => Sha2.round SHA256 s (K256.getD (4 * t + i) 0) (words.getD (4 * t + i) 0)) s

/-- The rounds of the portable loop, four at a time. -/
theorem foldl_fourRounds (words : List (BitVec 32)) (s : State 32) (n : Nat) :
    (List.range n).foldl (fourRounds words) s =
      (List.range (4 * n)).foldl (fun s i => Sha2.round SHA256 s (K256.getD i 0) (words.getD i 0)) s := by
  rw [foldl_range_mul]
  rfl

/-- Four rounds in two instructions. -/
theorem Represents.hash {s : State 32} {abcd efgh : Register} (represents : Represents s abcd efgh)
    {words : List (BitVec 32)} {t : Nat} {m : Register} (window : Window words t m) :
    let wk := vaddq_u32 m (vld1q_u32 (K256.drop (t * 4)))
    Represents (fourRounds words s t) (vsha256hq_u32 abcd efgh wk) (vsha256h2q_u32 efgh abcd wk) := by
  intro wk
  have sum (i : Nat) (inside : i < 4) : lane 32 wk i = words.getD (4 * t + i) 0 + K256.getD (4 * t + i) 0 := by
    refine (lane_ofLanes _ (by omega)).trans ?_
    rw [window i inside, vld1q_u32, lane_ofLanes _ (by omega), getD_drop, Nat.mul_comm t]
  have first := @Represents.pass s (abcd, efgh) represents wk 0 _ _ (sum 0 (by decide))
  exact ((first.pass (sum 1 (by decide))).pass (sum 2 (by decide))).pass (sum 3 (by decide))

/-- The next four words of the schedule, in two instructions. -/
theorem window_next {first words : List (BitVec 32)} {count t : Nat} (filled : Filled SHA256 first words count)
    (room : 4 * t + 4 ≤ count) {m0 m1 m2 m3 : Register} (w0 : Window words t m0) (w1 : Window words (t + 1) m1)
    (w2 : Window words (t + 2) m2) (w3 : Window words (t + 3) m3) :
    Window words (t + 4) (vsha256su1q_u32 (vsha256su0q_u32 m0 m1) m2 m3) := by
  have next (i : Nat) (inside : i < 4) : words.getD (4 * (t + 4) + i) 0 =
      words.getD (4 * t + i) 0 + smallSigma (7, 18, 3) (words.getD (4 * t + (i + 1)) 0) +
        words.getD (4 * (t + 2) + (i + 1)) 0 + smallSigma (17, 19, 10) (words.getD (4 * (t + 3) + (i + 2)) 0) := by
    have step := filled.later (4 * (t + 4) + i) (by omega) (by omega)
    have back16 : 4 * (t + 4) + i - 16 = 4 * t + i := by omega
    have back15 : 4 * (t + 4) + i - 15 = 4 * t + (i + 1) := by omega
    have back7 : 4 * (t + 4) + i - 7 = 4 * (t + 2) + (i + 1) := by omega
    have back2 : 4 * (t + 4) + i - 2 = 4 * (t + 3) + (i + 2) := by omega
    rw [back16, back15, back7, back2] at step
    exact step
  -- a word and the one behind it, which may be the first of the next register
  have behind {r : Nat} {m m' : Register} (w : Window words r m) (w' : Window words (r + 1) m') (i : Nat) (inside : i < 4) :
      (if i < 3 then lane 32 m (i + 1) else lane 32 m' 0) = words.getD (4 * r + (i + 1)) 0 := by
    by_cases last : i < 3
    · rw [if_pos last, w (i + 1) (by omega)]
    · have three : i = 3 := by omega
      rw [if_neg last, w' 0 (by decide), three]
      rfl
  have first_half (i : Nat) (inside : i < 4) : lane 32 (vsha256su0q_u32 m0 m1) i =
      smallSigma (7, 18, 3) (words.getD (4 * t + (i + 1)) 0) + words.getD (4 * t + i) 0 := by
    rw [vsha256su0q_u32, lane_ofLanes _ (by omega), behind w0 w1 i inside, w0 i inside]
  have low (i : Nat) (inside : i < 2) : smallSigma (17, 19, 10) (lane 32 m3 (i + 2)) + lane 32 (vsha256su0q_u32 m0 m1) i +
      (if i < 3 then lane 32 m2 (i + 1) else lane 32 m3 0) = words.getD (4 * (t + 4) + i) 0 := by
    rw [first_half i (by omega), behind w2 w3 i (by omega), w3 (i + 2) (by omega), next i (by omega)]
    ac_rfl
  intro i inside
  rw [vsha256su1q_u32, lane_ofLanes _ (by omega)]
  by_cases lower : i < 2
  · rw [if_pos lower]
    exact low i lower
  · have same : 4 * (t + 4) + (i - 2) = 4 * (t + 3) + (i + 2) := by omega
    rw [if_neg lower]
    beta_reduce
    rw [low (i - 2) (by omega), first_half i inside, behind w2 w3 i inside, next i inside, same]
    ac_rfl

/-- The registers before step `t`. -/
structure Running (words : List (BitVec 32)) (s : State 32) (t : Nat) (r : Registers) : Prop where
  state : Represents s r.abcd r.efgh
  m0 : Window words t r.m0
  m1 : Window words (t + 1) r.m1
  m2 : Window words (t + 2) r.m2
  m3 : Window words (t + 3) r.m3

theorem Running.round {words first : List (BitVec 32)} {count t : Nat} (filled : Filled SHA256 first words count)
    (room : 4 * t + 4 ≤ count) {s : State 32} {r : Registers} (running : Running words s t r) :
    Running words (fourRounds words s t) (t + 1) (Arm256.round r t) :=
  ⟨running.state.hash running.m0, running.m1, running.m2, running.m3,
    window_next filled room running.m0 running.m1 running.m2 running.m3⟩

/-- Twelve steps that extend the schedule. -/
theorem Running.rounds {words first : List (BitVec 32)} (filled : Filled SHA256 first words 48) {s : State 32}
    {r : Registers} (running : Running words s 0 r) {n : Nat} (few : n ≤ 12) :
    Running words ((List.range n).foldl (fourRounds words) s) n ((List.range n).foldl Arm256.round r) := by
  induction n with
  | zero => exact running
  | succ n ih =>
      rw [List.range_succ, List.foldl_append, List.foldl_append]
      exact (ih (Nat.le_of_succ_le few)).round filled (by omega)

theorem Represents.finalRound {words : List (BitVec 32)} {s : State 32} {t : Nat} {r : Registers}
    (state : Represents s r.abcd r.efgh) (m0 : Window words t r.m0) :
    Represents (fourRounds words s t) (Arm256.finalRound r t).abcd (Arm256.finalRound r t).efgh :=
  state.hash m0

/-- The last four steps use up what the registers hold. -/
theorem Running.finalRounds {words : List (BitVec 32)} {s : State 32} {t : Nat} {r : Registers}
    (running : Running words s t r) :
    Represents ((List.range' t 4).foldl (fourRounds words) s) ((List.range' t 4).foldl finalRound r).abcd
      ((List.range' t 4).foldl finalRound r).efgh := by
  obtain ⟨state, w0, w1, w2, w3⟩ := running
  have first := state.finalRound w0
  have second := @Represents.finalRound words _ (t + 1) (finalRound r t) first w1
  have third := @Represents.finalRound words _ (t + 2) (finalRound (finalRound r t) (t + 1)) second w2
  exact @Represents.finalRound words _ (t + 3) (finalRound (finalRound (finalRound r t) (t + 1)) (t + 2)) third w3

end Rounds

section Blocks

theorem loadMessage_window {data : Bytes} (length : data.length = 64) {words : List (BitVec 32)}
    {count : Nat} (filled : Filled SHA256 (blockWords 32 data) words count) {t : Nat} (inside : t < 4) :
    Window words t (loadMessage data t) := by
  intro i below
  rw [filled.block (4 * t + i) (by omega), blockWords_getD data (by omega)]
  exact @lane_vrevq_u8_piece 4 4 t i data rfl below (by omega)

/-- The sum of two states, in registers. -/
theorem Represents.add {s s' : State 32} {abcd efgh abcd' efgh' : Register} (first : Represents s abcd efgh)
    (second : Represents s' abcd' efgh') : Represents (s.add s') (vaddq_u32 abcd abcd') (vaddq_u32 efgh efgh') := by
  have lanes (x y : Register) (i : Nat) (inside : i < 4) : lane 32 (vaddq_u32 x y) i = lane 32 x i + lane 32 y i :=
    lane_ofLanes _ (by omega)
  constructor
  · rw [lanes _ _ 0 (by decide), first.a, second.a, State.add]
  · rw [lanes _ _ 1 (by decide), first.b, second.b, State.add]
  · rw [lanes _ _ 2 (by decide), first.c, second.c, State.add]
  · rw [lanes _ _ 3 (by decide), first.d, second.d, State.add]
  · rw [lanes _ _ 0 (by decide), first.e, second.e, State.add]
  · rw [lanes _ _ 1 (by decide), first.f, second.f, State.add]
  · rw [lanes _ _ 2 (by decide), first.g, second.g, State.add]
  · rw [lanes _ _ 3 (by decide), first.h, second.h, State.add]

/-- One block is one compression. -/
theorem Represents.block {s : State 32} {state : Register × Register} (represents : Represents s state.1 state.2)
    {data : Bytes} (length : data.length = 64) :
    Represents (compress256Portable s data) (Arm256.block state data).1 (Arm256.block state data).2 := by
  obtain ⟨abcd, efgh⟩ := state
  obtain ⟨words, ewords⟩ : ∃ words, words = schedule SHA256 data := ⟨_, rfl⟩
  have filled : Filled SHA256 (blockWords 32 data) words 48 := ewords ▸ schedule_filled data
  have start : Running words s 0
      { abcd, efgh, m0 := loadMessage data 0, m1 := loadMessage data 1, m2 := loadMessage data 2, m3 := loadMessage data 3 } :=
    ⟨represents, loadMessage_window length filled (by decide), loadMessage_window length filled (by decide),
      loadMessage_window length filled (by decide), loadMessage_window length filled (by decide)⟩
  have middle := start.rounds filled (Nat.le_refl 12)
  have finish := middle.finalRounds
  have turns : List.range 12 ++ List.range' 12 4 = List.range 16 := rfl
  have all := foldl_fourRounds words s 16
  rw [← turns, List.foldl_append] at all
  rw [all] at finish
  have summed := finish.add represents
  rw [State.add_comm, ewords] at summed
  exact summed

theorem Represents.blocks {s : State 32} {state : Register × Register} (represents : Represents s state.1 state.2)
    {blocks : List Bytes} (whole : ∀ block ∈ blocks, block.length = 64) :
    Represents (blocks.foldl compress256Portable s) (blocks.foldl Arm256.block state).1
      (blocks.foldl Arm256.block state).2 := by
  induction blocks generalizing s state with
  | nil => exact represents
  | cons block rest ih =>
      obtain ⟨first, later⟩ := List.forall_mem_cons.mp whole
      exact ih (represents.block first) later

theorem represents_load (s : State 32) : Represents s (vld1q_u32 (s.words.take 4)) (vld1q_u32 (s.words.drop 4)) := by
  have lanes (words : List (BitVec 32)) (i : Nat) (inside : i < 4) : lane 32 (vld1q_u32 words) i = words.getD i 0 :=
    lane_ofLanes _ (by omega)
  exact ⟨lanes _ 0 (by decide), lanes _ 1 (by decide), lanes _ 2 (by decide), lanes _ 3 (by decide),
    lanes _ 0 (by decide), lanes _ 1 (by decide), lanes _ 2 (by decide), lanes _ 3 (by decide)⟩

/-- On whole blocks the instructions compute what the portable loop does. -/
theorem compress_eq (s : State 32) {data : Bytes} (whole : 64 ∣ data.length) :
    compress s data = (chunks 64 data).foldl compress256Portable s := by
  obtain ⟨count, length⟩ := whole
  have pieces := (chunks_whole (by decide) length).2
  obtain ⟨ha, hb, hc, hd, he, hf, hg, hh⟩ :=
    @Represents.blocks s (vld1q_u32 (s.words.take 4), vld1q_u32 (s.words.drop 4)) (represents_load s) _ pieces
  simp only [compress, chunksExact_of_dvd (by decide) ⟨count, length⟩, ha, hb, hc, hd, he, hf, hg, hh]

end Blocks

end Arm256

end Blindplane.Crypto.Sha2
