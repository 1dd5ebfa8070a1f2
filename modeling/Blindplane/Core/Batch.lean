import Blindplane.Core.Sealing
import Blindplane.Lib.ForkJoin
import Mathlib.Data.PNat.Notation

/-! # Parallel batch sealing

Each record has its own object secret, so there is nothing to synchronize beyond collecting
the results: the items are cut into a chunk for each worker, and the results of a chunk are
written where its items stood.
-/

namespace Blindplane.Core

open Lib Lib.ForkJoin Crypto Wire

section Partition

variable {α : Type}

/-- `usize::div_ceil`. -/
def divCeil (n d : Nat) : Nat := if n % d = 0 then n / d else n / d + 1

/-- One worker for each core, as far as it is known how many there are, and no more than
    there are items. -/
def workersFor (parallelism : Option ℕ+) (count : Nat) : Nat := min (parallelism.elim 1 PNat.val) (max count 1)

/-- The chunks of the items, each with the index of its first item. -/
def jobs (workers : Nat) (items : List α) : List (Job α) :=
  let chunkSize := divCeil items.length workers
  (chunks chunkSize items).zipIdx.map fun (chunk, chunkIndex) => { offset := chunkIndex * chunkSize, items := chunk }

theorem divCeil_pos {n d : Nat} (some_items : 0 < n) : 0 < divCeil n d := by
  rw [divCeil]
  split
  · next whole =>
    cases d with
    | zero => omega
    | succ d => exact Nat.div_pos (Nat.le_of_dvd some_items (Nat.dvd_of_mod_eq_zero whole)) (Nat.succ_pos d)
  · exact Nat.succ_pos _

/-- Chunks of one size, from any index on, stand one behind the other. -/
theorem tiles_chunks {size : Nat} (positive : 0 < size) (items : List α) (index : Nat) :
    Tiles (index * size) (((chunks size items).zipIdx index).map fun (chunk, i) => { offset := i * size, items := chunk })
      (index * size + items.length) := by
  induction items using chunks.induct size generalizing index with
  | case1 items done =>
      obtain rfl : items = [] := done.resolve_right (Nat.ne_of_gt positive)
      rw [chunks_nil]
      rfl
  | case2 items more ih =>
      rw [chunks_of_ne_nil positive (not_or.mp more).1, List.zipIdx_cons, List.map_cons]
      refine ⟨rfl, ?_⟩
      dsimp only
      by_cases whole : size ≤ items.length
      · have next := ih (index + 1)
        have stop : (index + 1) * size + (items.drop size).length = index * size + items.length := by
          rw [List.length_drop, Nat.succ_mul]
          omega
        rw [List.length_take, Nat.min_eq_left whole, ← Nat.succ_mul]
        rwa [stop] at next
      · have short : items.length ≤ size := by omega
        rw [List.drop_of_length_le short, List.take_of_length_le short, chunks_nil]
        rfl

theorem tiles_jobs (workers : Nat) {items : List α} (some_items : 0 < items.length) :
    Tiles 0 (jobs workers items) items.length := by
  have positive : 0 < divCeil items.length workers := divCeil_pos some_items
  have tiles := tiles_chunks positive items 0
  rwa [Nat.zero_mul, Nat.zero_add] at tiles

theorem itemsOf_jobs (workers : Nat) {items : List α} (some_items : 0 < items.length) :
    itemsOf (jobs workers items) = items := by
  have positive : 0 < divCeil items.length workers := divCeil_pos some_items
  have cut : itemsOf (jobs workers items) = ((chunks (divCeil items.length workers) items).zipIdx.map Prod.fst).flatten := by
    rw [itemsOf, jobs, List.flatMap_map, List.flatMap_def]
  rw [cut, List.zipIdx_map_fst, flatten_chunks positive]

end Partition

variable [ClientPrimitives]

/-- An owned work item for parallel sealing. -/
structure BatchItem where
  /-- Authenticated routing context. -/
  context : RecordContext
  plaintext : Bytes
  /-- Independent recipients. -/
  recipients : List Recipient
  /-- Optional exact-search indexes. -/
  indexes : List BlindIndex

variable [Features]

/-- One item sealed alone, with the randomness that it draws. -/
def sealItem (author : Author) (suite : Suite) (item : BatchItem × Entropy) : Except CryptoError SealedRecord :=
  (Core.seal author item.1.context item.1.plaintext item.1.recipients item.1.indexes suite item.2).map Prod.fst

/-- Seal independent records across all available cores, preserving input order. A schedule
    says in which order the threads take their steps; `none` when one cannot be taken. -/
def sealBatch (author : Author) (items : List (BatchItem × Entropy)) (suite : Suite) (parallelism : Option ℕ+)
    (schedule : List Action) : Option (State (BatchItem × Entropy) (Except CryptoError SealedRecord)) :=
  let workers := workersFor parallelism items.length
  if workers ≤ 1 ∨ items.length ≤ 1 then some (.returned (items.map (sealItem author suite)) [])
  else run (sealItem author suite) (start (jobs workers items) items.length) schedule

section Results

variable {author : Author} {items : List (BatchItem × Entropy)} {suite : Suite} {parallelism : Option ℕ+}
  {schedule : List Action}

/-- With one worker or one item there is nothing to schedule. -/
theorem sealBatch_sequential (alone : workersFor parallelism items.length ≤ 1 ∨ items.length ≤ 1) :
    sealBatch author items suite parallelism schedule = some (.returned (items.map (sealItem author suite)) []) :=
  if_pos alone

theorem sealBatch_parallel (several : ¬ (workersFor parallelism items.length ≤ 1 ∨ items.length ≤ 1)) :
    sealBatch author items suite parallelism schedule =
      run (sealItem author suite) (start (jobs (workersFor parallelism items.length) items) items.length) schedule :=
  if_neg several

theorem sealBatch_good (several : ¬ (workersFor parallelism items.length ≤ 1 ∨ items.length ≤ 1))
    {state : State (BatchItem × Entropy) (Except CryptoError SealedRecord)}
    (ran : sealBatch author items suite parallelism schedule = some state) :
    Good (sealItem author suite) (jobs (workersFor parallelism items.length) items) items.length state ∧
      schedule.length + remaining state = items.length + 2 * (jobs (workersFor parallelism items.length) items).length + 1 := by
  have some_items : 0 < items.length := by omega
  have tiles := tiles_jobs (workersFor parallelism items.length) some_items
  rw [sealBatch_parallel several] at ran
  have length := good_start.length tiles ran
  rw [remaining_start, itemsOf_jobs _ some_items] at length
  exact ⟨good_start.run tiles ran, length⟩

theorem sealBatch_append (several : ¬ (workersFor parallelism items.length ≤ 1 ∨ items.length ≤ 1)) (more : List Action) :
    sealBatch author items suite parallelism (schedule ++ more) =
      (sealBatch author items suite parallelism schedule).bind fun state => run (sealItem author suite) state more := by
  rw [sealBatch_parallel several, sealBatch_parallel several, run_append]

/-- Whatever state a schedule has brought a batch to, the batch can go on to its end. -/
theorem sealBatch_finishes {state : State (BatchItem × Entropy) (Except CryptoError SealedRecord)}
    (ran : sealBatch author items suite parallelism schedule = some state) :
    ∃ more results written, sealBatch author items suite parallelism (schedule ++ more) = some (.returned results written) := by
  by_cases alone : workersFor parallelism items.length ≤ 1 ∨ items.length ≤ 1
  · exact ⟨[], _, _, sealBatch_sequential alone⟩
  · obtain ⟨good, -⟩ := sealBatch_good alone ran
    obtain ⟨more, results, written, finished⟩ := good.finishes (tiles_jobs _ (by omega))
    refine ⟨more, results, written, ?_⟩
    rw [sealBatch_append alone, ran, Option.bind_some, finished]

/-- Whatever the number of cores, the batch starts. Under every schedule it never panics, it
    can go on to its end, and what it returns is each item's own result in its place, every
    slot written once. Every slot index is in range, and no schedule is stuck or goes on for
    ever. -/
theorem sealBatch_exact (author : Author) (items : List (BatchItem × Entropy)) (suite : Suite) (parallelism : Option ℕ+) :
    (∃ state, sealBatch author items suite parallelism [] = some state) ∧
    (∀ schedule state, sealBatch author items suite parallelism schedule = some state →
      state ≠ .panicked ∧
      (∃ more results written,
        sealBatch author items suite parallelism (schedule ++ more) = some (.returned results written)) ∧
      ∀ results written, state = .returned results written →
        results.length = items.length ∧ (∀ i : Nat, results[i]? = items[i]?.map (sealItem author suite)) ∧
        (1 < workersFor parallelism items.length → 1 < items.length → written = List.range items.length)) ∧
    (∀ job ∈ jobs (workersFor parallelism items.length) items, ∀ i < job.items.length, job.offset + i < items.length) ∧
    ∀ schedule s, sealBatch author items suite parallelism schedule = some (.running s) →
      (∃ action next, sealBatch author items suite parallelism (schedule ++ [action]) = some next) ∧
      schedule.length ≤ items.length + 2 * (jobs (workersFor parallelism items.length) items).length := by
  refine ⟨?_, ?_, ?_, ?_⟩
  · by_cases alone : workersFor parallelism items.length ≤ 1 ∨ items.length ≤ 1
    · exact ⟨_, sealBatch_sequential alone⟩
    · exact ⟨_, sealBatch_parallel alone⟩
  · intro schedule state ran
    refine ⟨?_, sealBatch_finishes ran, ?_⟩
    · rintro rfl
      by_cases alone : workersFor parallelism items.length ≤ 1 ∨ items.length ≤ 1
      · rw [sealBatch_sequential alone] at ran
        cases ran
      · exact (sealBatch_good alone ran).1
    · rintro results written rfl
      by_cases alone : workersFor parallelism items.length ≤ 1 ∨ items.length ≤ 1
      · rw [sealBatch_sequential alone] at ran
        cases ran
        refine ⟨List.length_map _, fun i => List.getElem?_map, ?_⟩
        intro several many
        omega
      · have some_items : 0 < items.length := by omega
        obtain ⟨rfl, places⟩ := (sealBatch_good alone ran).1
        rw [itemsOf_jobs _ some_items]
        exact ⟨List.length_map _, fun i => List.getElem?_map, fun _ _ => places⟩
  · intro job member i inside
    cases items with
    | nil => simp [jobs] at member
    | cons first rest =>
        have fits := (tiles_jobs _ (List.length_pos_of_ne_nil (List.cons_ne_nil first rest))).inside member
        omega
  · intro schedule s ran
    by_cases alone : workersFor parallelism items.length ≤ 1 ∨ items.length ≤ 1
    · rw [sealBatch_sequential alone] at ran
      cases ran
    · obtain ⟨-, length⟩ := sealBatch_good alone ran
      obtain ⟨action, next, taken⟩ := @progress _ _ (sealItem author suite) s
      constructor
      · refine ⟨action, next, ?_⟩
        rw [sealBatch_append alone, ran, Option.bind_some]
        exact run_cons taken []
      · have more : 1 ≤ remaining (.running s) := Nat.succ_pos _
        omega

end Results

end Blindplane.Core
