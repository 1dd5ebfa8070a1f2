import Blindplane.Crypto.Sha2.Instructions

/-! # SHA-512 on FEAT_SHA512

Two rounds to a step. The eight words lie in four registers by pairs, and a step makes one
new pair of each half, so the registers change roles; the schedule is a ring of eight
registers, extended in place while there are words to come.
-/

namespace Blindplane.Crypto.Sha2

open Lib Simd

namespace Arm512

/-- The registers of the loop. -/
structure Registers where
  a : Register
  b : Register
  c : Register
  d : Register
  w : Vector Register 8

/-- The message register `step + offset`. -/
def ring (step offset : Nat) : Fin 8 := ⟨(step + offset) % 8, Nat.mod_lt _ (Nat.zero_lt_succ 7)⟩

/-- Two rounds. -/
def step (r : Registers) (step : Nat) : Registers :=
  let kw := vaddq_u64 (vld1q_u64 (K512.drop (step * 2))) (r.w.get (ring step 0))
  let kw := vextq_u64 1 kw kw
  let t5 := vextq_u64 1 r.c r.d
  let t6 := vextq_u64 1 r.b r.c
  let w := if step < 32 then put r.w (ring step 0) (vsha512su0q_u64 (r.w.get (ring step 0)) (r.w.get (ring step 1))) else r.w
  let nd := vaddq_u64 r.d kw
  let nd := vsha512hq_u64 nd t5 t6
  let w :=
    if step < 32 then
      let ext := vextq_u64 1 (w.get (ring step 4)) (w.get (ring step 5))
      put w (ring step 0) (vsha512su1q_u64 (w.get (ring step 0)) (w.get (ring step 7)) ext)
    else w
  let aux := vaddq_u64 r.b nd
  let nd := vsha512h2q_u64 nd r.b r.a
  -- the roles rotate
  { a := nd, b := r.a, c := aux, d := r.c, w }

/-- SHA-512 is big-endian; NEON loads little-endian. -/
def loadMessage (block : Bytes) (i : Nat) : Register := vrevq_u8 8 (vld1q ((block.drop (i * 16)).take 16))

/-- One block. -/
def block (s : Register × Register × Register × Register) (data : Bytes) : Register × Register × Register × Register :=
  let (a, b, c, d) := s
  let r := (List.range 40).foldl step { a, b, c, d, w := Vector.ofFn fun i => loadMessage data i.val }
  (vaddq_u64 r.a a, vaddq_u64 r.b b, vaddq_u64 r.c c, vaddq_u64 r.d d)

/-- Compress whole 128-byte blocks. -/
def compress (state : State 64) (data : Bytes) : State 64 :=
  let load := fun i => vld1q_u64 (state.words.drop i)
  let (a, b, c, d) := (chunksExact 128 data).foldl block (load 0, load 2, load 4, load 6)
  { a := lane 64 a 0, b := lane 64 a 1, c := lane 64 b 0, d := lane 64 b 1
    e := lane 64 c 0, f := lane 64 c 1, g := lane 64 d 0, h := lane 64 d 1 }

section Rounds

/-- Four registers that hold the words of a state. -/
structure Represents (s : State 64) (ab cd ef gh : Register) : Prop where
  a : lane 64 ab 0 = s.a
  b : lane 64 ab 1 = s.b
  c : lane 64 cd 0 = s.c
  d : lane 64 cd 1 = s.d
  e : lane 64 ef 0 = s.e
  f : lane 64 ef 1 = s.f
  g : lane 64 gh 0 = s.g
  h : lane 64 gh 1 = s.h

/-- The words `2 * t` and `2 * t + 1` of a list. -/
def Pair (words : List (BitVec 64)) (t : Nat) (m : Register) : Prop :=
  lane 64 m 0 = words.getD (2 * t) 0 ∧ lane 64 m 1 = words.getD (2 * t + 1) 0

/-- Rounds `2 * t` and `2 * t + 1`. -/
def twoRounds (words : List (BitVec 64)) (s : State 64) (t : Nat) : State 64 :=
  (List.range 2).foldl (fun s i => Sha2.round SHA512 s (K512.getD (2 * t + i) 0) (words.getD (2 * t + i) 0)) s

theorem twoRounds_eq (words : List (BitVec 64)) (s : State 64) (t : Nat) :
    twoRounds words s t =
      Sha2.round SHA512 (Sha2.round SHA512 s (K512.getD (2 * t) 0) (words.getD (2 * t) 0)) (K512.getD (2 * t + 1) 0)
        (words.getD (2 * t + 1) 0) := by
  rw [twoRounds, List.range_succ, List.foldl_append, List.range_one]
  simp only [List.foldl_cons, List.foldl_nil, Nat.add_zero]

theorem foldl_twoRounds (words : List (BitVec 64)) (s : State 64) (n : Nat) :
    (List.range n).foldl (twoRounds words) s =
      (List.range (2 * n)).foldl (fun s i => Sha2.round SHA512 s (K512.getD i 0) (words.getD i 0)) s := by
  rw [foldl_range_mul]
  rfl

theorem lane_vaddq_u64 (x y : Register) {i : Nat} (inside : i < 2) :
    lane 64 (vaddq_u64 x y) i = lane 64 x i + lane 64 y i :=
  lane_ofLanes _ (by omega)

theorem lane_vextq_u64 (x y : Register) :
    lane 64 (vextq_u64 1 x y) 0 = lane 64 x 1 ∧ lane 64 (vextq_u64 1 x y) 1 = lane 64 y 0 := by
  constructor
  · rw [vextq_u64, lane_ofLanes _ (by decide), if_pos (by decide)]
  · rw [vextq_u64, lane_ofLanes _ (by decide), if_neg (by decide)]

theorem lane_low (low high : BitVec 64) : lane 64 (ofLanes 64 fun i => if i = 0 then low else high) 0 = low := by
  rw [lane_ofLanes _ (by decide), if_pos rfl]

theorem lane_high (low high : BitVec 64) : lane 64 (ofLanes 64 fun i => if i = 0 then low else high) 1 = high := by
  rw [lane_ofLanes _ (by decide), if_neg Nat.one_ne_zero]

/-- The first half of two rounds: what both add to the state. -/
theorem lane_vsha512hq (w x y : Register) :
    lane 64 (vsha512hq_u64 w x y) 1 =
        ch (lane 64 y 1) (lane 64 x 0) (lane 64 x 1) + bigSigma (14, 18, 41) (lane 64 y 1) + lane 64 w 1 ∧
      lane 64 (vsha512hq_u64 w x y) 0 =
        ch (lane 64 (vsha512hq_u64 w x y) 1 + lane 64 y 0) (lane 64 y 1) (lane 64 x 0) +
          bigSigma (14, 18, 41) (lane 64 (vsha512hq_u64 w x y) 1 + lane 64 y 0) + lane 64 w 0 := by
  constructor
  · rw [vsha512hq_u64, lane_high, ch]
  · rw [vsha512hq_u64, lane_high, lane_low, ch]

/-- The second half. -/
theorem lane_vsha512h2q (w x y : Register) :
    lane 64 (vsha512h2q_u64 w x y) 1 =
        maj (lane 64 y 0) (lane 64 y 1) (lane 64 x 0) + bigSigma (28, 34, 39) (lane 64 y 0) + lane 64 w 1 ∧
      lane 64 (vsha512h2q_u64 w x y) 0 =
        maj (lane 64 (vsha512h2q_u64 w x y) 1) (lane 64 y 0) (lane 64 y 1) +
          bigSigma (28, 34, 39) (lane 64 (vsha512h2q_u64 w x y) 1) + lane 64 w 0 := by
  constructor
  · rw [vsha512h2q_u64, lane_high, ← maj_comm, maj]
  · rw [vsha512h2q_u64, lane_high, lane_low, maj, BitVec.and_comm (lane 64 y 0) (lane 64 y 1)]

/-- Two rounds of the portable loop in two instructions. -/
theorem Represents.pair {s : State 64} {ab cd ef gh kw : Register} (represents : Represents s ab cd ef gh)
    {k k' word word' : BitVec 64} (first : lane 64 kw 1 = k + word) (second : lane 64 kw 0 = k' + word') :
    let nd := vsha512hq_u64 (vaddq_u64 gh kw) (vextq_u64 1 ef gh) (vextq_u64 1 cd ef)
    Represents (Sha2.round SHA512 (Sha2.round SHA512 s k word) k' word') (vsha512h2q_u64 nd cd ab) ab (vaddq_u64 cd nd) ef := by
  intro nd
  obtain ⟨ha, hb, hc, hd, he, hf, hg, hh⟩ := represents
  obtain ⟨high, low⟩ := lane_vsha512hq (vaddq_u64 gh kw) (vextq_u64 1 ef gh) (vextq_u64 1 cd ef)
  obtain ⟨high', low'⟩ := lane_vsha512h2q nd cd ab
  rw [(lane_vextq_u64 ef gh).1, (lane_vextq_u64 ef gh).2, (lane_vextq_u64 cd ef).2, lane_vaddq_u64 _ _ (by decide), hf, hg,
    he, hh, first] at high
  rw [(lane_vextq_u64 ef gh).1, (lane_vextq_u64 cd ef).2, (lane_vextq_u64 cd ef).1, lane_vaddq_u64 _ _ (by decide), hf, he,
    hd, hg, second] at low
  rw [ha, hb, hc] at high'
  rw [ha, hb] at low'
  have t1 : lane 64 nd 1 = s.h + bigSigma (14, 18, 41) s.e + ch s.e s.f s.g + k + word := by
    rw [high]
    ac_rfl
  have e1 : lane 64 nd 1 + s.d = (Sha2.round SHA512 s k word).e := by
    rw [t1, BitVec.add_comm]
    rfl
  have a1 : lane 64 (vsha512h2q_u64 nd cd ab) 1 = (Sha2.round SHA512 s k word).a := by
    rw [high', t1, BitVec.add_comm, BitVec.add_comm (maj s.a s.b s.c)]
    rfl
  have t2 : lane 64 nd 0 = s.g + bigSigma (14, 18, 41) (Sha2.round SHA512 s k word).e +
      ch (Sha2.round SHA512 s k word).e s.e s.f + k' + word' := by
    rw [low]
    have same : lane 64 (vsha512hq_u64 (vaddq_u64 gh kw) (vextq_u64 1 ef gh) (vextq_u64 1 cd ef)) 1 + s.d =
      (Sha2.round SHA512 s k word).e := e1
    rw [same]
    ac_rfl
  constructor
  · rw [low', a1, t2, BitVec.add_comm, BitVec.add_comm (maj _ s.a s.b)]
    rfl
  · exact a1
  · exact ha
  · exact hb
  · rw [lane_vaddq_u64 _ _ (by decide), hc, t2]
    rfl
  · rw [lane_vaddq_u64 _ _ (by decide), hd, BitVec.add_comm]
    exact e1
  · exact he
  · exact hf

/-- The next two words of the schedule, in two instructions. -/
theorem pair_next {first words : List (BitVec 64)} {count t : Nat} (filled : Filled SHA512 first words count)
    (room : 2 * t + 2 ≤ count) {m m1 m4 m5 m7 : Register} (w0 : Pair words t m) (w1 : Pair words (t + 1) m1)
    (w4 : Pair words (t + 4) m4) (w5 : Pair words (t + 5) m5) (w7 : Pair words (t + 7) m7) :
    Pair words (t + 8) (vsha512su1q_u64 (vsha512su0q_u64 m m1) m7 (vextq_u64 1 m4 m5)) := by
  have next (i : Nat) (inside : i < 2) : words.getD (2 * (t + 8) + i) 0 =
      words.getD (2 * t + i) 0 + smallSigma (1, 8, 7) (words.getD (2 * t + i + 1) 0) +
        words.getD (2 * (t + 4) + i + 1) 0 + smallSigma (19, 61, 6) (words.getD (2 * (t + 7) + i) 0) := by
    have step := filled.later (2 * (t + 8) + i) (by omega) (by omega)
    have back16 : 2 * (t + 8) + i - 16 = 2 * t + i := by omega
    have back15 : 2 * (t + 8) + i - 15 = 2 * t + i + 1 := by omega
    have back7 : 2 * (t + 8) + i - 7 = 2 * (t + 4) + i + 1 := by omega
    have back2 : 2 * (t + 8) + i - 2 = 2 * (t + 7) + i := by omega
    rw [back16, back15, back7, back2] at step
    exact step
  obtain ⟨low0, high0⟩ := w0
  obtain ⟨low1, -⟩ := w1
  obtain ⟨-, high4⟩ := w4
  obtain ⟨low5, -⟩ := w5
  obtain ⟨low7, high7⟩ := w7
  constructor
  · rw [vsha512su1q_u64, lane_low, vsha512su0q_u64, lane_low, (lane_vextq_u64 m4 m5).1, low0, high0, low7, high4]
    have word := next 0 (by decide)
    rw [Nat.add_zero, Nat.add_zero, Nat.add_zero, Nat.add_zero] at word
    rw [word]
    ac_rfl
  · rw [vsha512su1q_u64, lane_high, vsha512su0q_u64, lane_high, (lane_vextq_u64 m4 m5).2, high0, low1, high7, low5]
    have word := next 1 (by decide)
    have behind (r : Nat) : 2 * r + 1 + 1 = 2 * (r + 1) := rfl
    rw [behind, behind] at word
    rw [word]
    ac_rfl

/-- The registers before step `t`: the ring holds what the rounds still need of the next
    sixteen words. -/
structure Running (words : List (BitVec 64)) (s : State 64) (t : Nat) (r : Registers) : Prop where
  state : Represents s r.a r.b r.c r.d
  held : ∀ i < 8, t + i < 40 → Pair words (t + i) (r.w.get (ring t i))

theorem ring_succ (t i : Nat) : ring (t + 1) i = ring t (i + 1) := by
  rw [ring, ring, Fin.mk.injEq, Nat.add_right_comm, Nat.add_assoc]

theorem ring_full (t : Nat) : ring t 8 = ring t 0 := by
  rw [ring, ring, Fin.mk.injEq, Nat.add_mod_right, Nat.add_zero]

theorem ring_ne {t i : Nat} (later : 0 < i) (inside : i < 8) : ring t 0 ≠ ring t i := by
  intro same
  have positions : (t + 0) % 8 = (t + i) % 8 := congrArg Fin.val same
  omega

/-- What a step does to the ring: only the register whose turn it is changes, and only
    while there are words to come. -/
theorem step_w (r : Registers) (t : Nat) :
    (step r t).w = if t < 32 then
      put r.w (ring t 0) (vsha512su1q_u64 (vsha512su0q_u64 (r.w.get (ring t 0)) (r.w.get (ring t 1)))
        (r.w.get (ring t 7)) (vextq_u64 1 (r.w.get (ring t 4)) (r.w.get (ring t 5))))
    else r.w := by
  by_cases more : t < 32
  · have kept (x : Register) (i : Nat) (later : 0 < i) (inside : i < 8) :
        (put r.w (ring t 0) x).get (ring t i) = r.w.get (ring t i) := by
      rw [get_put, if_neg (ring_ne later inside)]
    simp only [step, if_pos more]
    rw [kept _ 4 (by decide) (by decide), kept _ 5 (by decide) (by decide), kept _ 7 (by decide) (by decide), get_put_self,
      put_put]
  · simp only [step, if_neg more]

theorem Running.step {words first : List (BitVec 64)} (filled : Filled SHA512 first words 64) {s : State 64} {t : Nat}
    {r : Registers} (running : Running words s t r) (inside : t < 40) :
    Running words (twoRounds words s t) (t + 1) (Arm512.step r t) := by
  obtain ⟨state, held⟩ := running
  obtain ⟨low, high⟩ := held 0 (by decide) inside
  constructor
  · obtain ⟨kw, ekw⟩ : ∃ kw, kw = vaddq_u64 (vld1q_u64 (K512.drop (t * 2))) (r.w.get (ring t 0)) := ⟨_, rfl⟩
    have loaded (i : Nat) (below : i < 2) : lane 64 (vld1q_u64 (K512.drop (t * 2))) i = K512.getD (2 * t + i) 0 := by
      rw [vld1q_u64, lane_ofLanes _ (by omega), getD_drop, Nat.mul_comm]
    have first : lane 64 (vextq_u64 1 kw kw) 1 = K512.getD (2 * t) 0 + words.getD (2 * t) 0 := by
      rw [(lane_vextq_u64 kw kw).2, ekw, lane_vaddq_u64 _ _ (by decide), loaded 0 (by decide), low]
      rfl
    have second : lane 64 (vextq_u64 1 kw kw) 0 = K512.getD (2 * t + 1) 0 + words.getD (2 * t + 1) 0 := by
      rw [(lane_vextq_u64 kw kw).1, ekw, lane_vaddq_u64 _ _ (by decide), loaded 1 (by decide), high]
      rfl
    have pair := state.pair first second
    rw [twoRounds_eq, Arm512.step]
    simp only [← ekw]
    exact pair
  · intro i below later
    rw [step_w, ring_succ]
    have position : t + 1 + i = t + (i + 1) := by omega
    rw [position] at later ⊢
    by_cases last : i = 7
    · -- the register whose turn it was now holds the words after the ring
      have more : t < 32 := by omega
      rw [last, ring_full, if_pos more, get_put_self]
      exact pair_next filled (by omega) (held 0 (by decide) inside) (held 1 (by decide) (by omega))
        (held 4 (by decide) (by omega)) (held 5 (by decide) (by omega)) (held 7 (by decide) (by omega))
    · have kept := held (i + 1) (by omega) later
      split
      · rw [get_put, if_neg (ring_ne (Nat.succ_pos i) (by omega))]
        exact kept
      · exact kept

/-- All steps of a block. -/
theorem Running.steps {words first : List (BitVec 64)} (filled : Filled SHA512 first words 64) {s : State 64}
    {r : Registers} (running : Running words s 0 r) {n : Nat} (few : n ≤ 40) :
    Running words ((List.range n).foldl (twoRounds words) s) n ((List.range n).foldl Arm512.step r) := by
  induction n with
  | zero => exact running
  | succ n ih =>
      rw [List.range_succ, List.foldl_append, List.foldl_append]
      exact (ih (Nat.le_of_succ_le few)).step filled few

end Rounds

section Blocks

theorem loadMessage_pair {data : Bytes} (length : data.length = 128) {words : List (BitVec 64)} {count : Nat}
    (filled : Filled SHA512 (blockWords 64 data) words count) {t : Nat} (inside : t < 8) :
    Pair words t (loadMessage data t) := by
  have word (i : Nat) (below : i < 2) : lane 64 (loadMessage data t) i = words.getD (2 * t + i) 0 := by
    rw [filled.block (2 * t + i) (by omega), blockWords_getD data (by omega)]
    exact @lane_vrevq_u8_piece 8 2 t i data rfl below (by omega)
  exact ⟨word 0 (by decide), word 1 (by decide)⟩

/-- The sum of two states, in registers. -/
theorem Represents.add {s s' : State 64} {ab cd ef gh ab' cd' ef' gh' : Register} (first : Represents s ab cd ef gh)
    (second : Represents s' ab' cd' ef' gh') :
    Represents (s.add s') (vaddq_u64 ab ab') (vaddq_u64 cd cd') (vaddq_u64 ef ef') (vaddq_u64 gh gh') := by
  constructor
  · rw [lane_vaddq_u64 _ _ (by decide), first.a, second.a, State.add]
  · rw [lane_vaddq_u64 _ _ (by decide), first.b, second.b, State.add]
  · rw [lane_vaddq_u64 _ _ (by decide), first.c, second.c, State.add]
  · rw [lane_vaddq_u64 _ _ (by decide), first.d, second.d, State.add]
  · rw [lane_vaddq_u64 _ _ (by decide), first.e, second.e, State.add]
  · rw [lane_vaddq_u64 _ _ (by decide), first.f, second.f, State.add]
  · rw [lane_vaddq_u64 _ _ (by decide), first.g, second.g, State.add]
  · rw [lane_vaddq_u64 _ _ (by decide), first.h, second.h, State.add]

/-- One block is one compression. -/
theorem Represents.block {s : State 64} {state : Register × Register × Register × Register}
    (represents : Represents s state.1 state.2.1 state.2.2.1 state.2.2.2) {data : Bytes} (length : data.length = 128) :
    Represents (compress512 s data) (Arm512.block state data).1 (Arm512.block state data).2.1
      (Arm512.block state data).2.2.1 (Arm512.block state data).2.2.2 := by
  obtain ⟨a, b, c, d⟩ := state
  obtain ⟨words, ewords⟩ : ∃ words, words = schedule SHA512 data := ⟨_, rfl⟩
  have filled : Filled SHA512 (blockWords 64 data) words 64 := ewords ▸ schedule_filled data
  have start : Running words s 0 { a, b, c, d, w := Vector.ofFn fun i => loadMessage data i.val } := by
    refine ⟨represents, fun i below _ => ?_⟩
    have held : (Vector.ofFn fun i : Fin 8 => loadMessage data i.val).get (ring 0 i) = loadMessage data (ring 0 i).val :=
      Vector.getElem_ofFn _
    have place : (ring 0 i).val = i := by
      show (0 + i) % 8 = i
      omega
    rw [held, place, Nat.zero_add]
    exact loadMessage_pair length filled below
  have finish := (start.steps filled (Nat.le_refl 40)).state
  rw [foldl_twoRounds] at finish
  have summed := finish.add represents
  rw [State.add_comm, ewords] at summed
  exact summed

theorem Represents.blocks {s : State 64} {state : Register × Register × Register × Register}
    (represents : Represents s state.1 state.2.1 state.2.2.1 state.2.2.2) {blocks : List Bytes}
    (whole : ∀ block ∈ blocks, block.length = 128) :
    Represents (blocks.foldl compress512 s) (blocks.foldl Arm512.block state).1 (blocks.foldl Arm512.block state).2.1
      (blocks.foldl Arm512.block state).2.2.1 (blocks.foldl Arm512.block state).2.2.2 := by
  induction blocks generalizing s state with
  | nil => exact represents
  | cons block rest ih =>
      obtain ⟨first, later⟩ := List.forall_mem_cons.mp whole
      exact ih (represents.block first) later

theorem represents_load (s : State 64) :
    Represents s (vld1q_u64 (s.words.drop 0)) (vld1q_u64 (s.words.drop 2)) (vld1q_u64 (s.words.drop 4))
      (vld1q_u64 (s.words.drop 6)) := by
  have lanes (words : List (BitVec 64)) (i : Nat) (inside : i < 2) : lane 64 (vld1q_u64 words) i = words.getD i 0 :=
    lane_ofLanes _ (by omega)
  exact ⟨lanes _ 0 (by decide), lanes _ 1 (by decide), lanes _ 0 (by decide), lanes _ 1 (by decide),
    lanes _ 0 (by decide), lanes _ 1 (by decide), lanes _ 0 (by decide), lanes _ 1 (by decide)⟩

/-- On whole blocks the instructions compute what the portable loop does. -/
theorem compress_eq (s : State 64) {data : Bytes} (whole : 128 ∣ data.length) :
    compress s data = (chunks 128 data).foldl compress512 s := by
  obtain ⟨count, length⟩ := whole
  have pieces := (chunks_whole (by decide) length).2
  obtain ⟨ha, hb, hc, hd, he, hf, hg, hh⟩ :=
    @Represents.blocks s (vld1q_u64 (s.words.drop 0), vld1q_u64 (s.words.drop 2), vld1q_u64 (s.words.drop 4),
      vld1q_u64 (s.words.drop 6)) (represents_load s) _ pieces
  simp only [compress, chunksExact_of_dvd (by decide) ⟨count, length⟩, ha, hb, hc, hd, he, hf, hg, hh]

end Blocks

end Arm512

end Blindplane.Crypto.Sha2
