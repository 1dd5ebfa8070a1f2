import Blindplane.Lib.Slice
import Mathlib.Data.List.Forall2

/-! # Fork and join

A main thread hands out jobs to workers, which apply one function to their items at their
own pace, and joins them in the order in which it made them. The results of a job go to
slots from its offset on. When the jobs tile the slots, every run leaves the results in
the order of the items, whatever the schedule.
-/

namespace Blindplane.Lib.ForkJoin

variable {α β : Type}

/-- Some items, and where their results go. -/
structure Job (α : Type) where
  offset : Nat
  items : List α

/-- A worker has items left, and has made results of those before. -/
structure Worker (α β : Type) where
  offset : Nat
  left : List α
  made : List β

structure Running (α β : Type) where
  waiting : List (Job α)
  workers : List (Worker α β)
  slots : List (Option β)
  /-- The slots written so far, in order. -/
  written : List Nat

inductive State (α β : Type) where
  | running (s : Running α β)
  | returned (results : List β) (written : List Nat)
  | panicked

inductive Action where
  | spawn
  | work (worker : Nat)
  | join
  | collect

section Steps

/-- The next job gets a worker. -/
def Running.spawn (s : Running α β) : Option (Running α β) :=
  match s.waiting with
  | [] => none
  | job :: waiting =>
      some { s with waiting, workers := s.workers ++ [{ offset := job.offset, left := job.items, made := [] }] }

/-- A worker takes its next item. -/
def Worker.work (f : α → β) (worker : Worker α β) : Option (Worker α β) :=
  match worker.left with
  | [] => none
  | item :: left => some { worker with left, made := worker.made ++ [f item] }

def Running.work (f : α → β) (s : Running α β) (i : Nat) : Option (Running α β) := do
  let worker ← s.workers[i]?
  let worker ← worker.work f
  return { s with workers := s.workers.set i worker }

/-- Write results to the slots from an offset on, which must exist. -/
def fill (offset : Nat) : (i : Nat) → (made : List β) → (slots : List (Option β)) → (written : List Nat) →
    Option (List (Option β) × List Nat)
  | _, [], slots, written => some (slots, written)
  | i, result :: made, slots, written => do
      let slots ← store slots (offset + i) (some result)
      fill offset (i + 1) made slots (written ++ [offset + i])

/-- With all jobs handed out, the first worker is waited for. -/
def Running.join (s : Running α β) : Option (State α β) :=
  match s.waiting, s.workers with
  | [], { offset, left := [], made } :: workers =>
      match fill offset 0 made s.slots s.written with
      | some (slots, written) => some (.running { s with workers, slots, written })
      | none => some .panicked
  | _, _ => none

/-- With all workers joined, every slot must be filled. -/
def Running.collect (s : Running α β) : Option (State α β) :=
  match s.waiting, s.workers with
  | [], [] =>
      match s.slots.mapM id with
      | some results => some (.returned results s.written)
      | none => some .panicked
  | _, _ => none

/-- One step of a schedule; `none` when it cannot be taken. -/
def step (f : α → β) : State α β → Action → Option (State α β)
  | .running s, .spawn => s.spawn.map .running
  | .running s, .work i => (s.work f i).map .running
  | .running s, .join => s.join
  | .running s, .collect => s.collect
  | _, _ => none

def run (f : α → β) (s : State α β) (schedule : List Action) : Option (State α β) := schedule.foldlM (step f) s

/-- Nothing is handed out, and no slot is filled. -/
def start (jobs : List (Job α)) (count : Nat) : State α β :=
  .running { waiting := jobs, workers := [], slots := List.replicate count none, written := [] }

end Steps

section Tiles

/-- The jobs stand one behind the other from `start` to `stop`. -/
def Tiles : (start : Nat) → List (Job α) → (stop : Nat) → Prop
  | start, [], stop => start = stop
  | start, job :: jobs, stop => job.offset = start ∧ Tiles (start + job.items.length) jobs stop

def itemsOf (jobs : List (Job α)) : List α := jobs.flatMap Job.items

@[simp] theorem itemsOf_nil : itemsOf ([] : List (Job α)) = [] := rfl

@[simp] theorem itemsOf_append (front back : List (Job α)) : itemsOf (front ++ back) = itemsOf front ++ itemsOf back :=
  List.flatMap_append

@[simp] theorem itemsOf_cons (job : Job α) (jobs : List (Job α)) :
    itemsOf (job :: jobs) = job.items ++ itemsOf jobs := List.flatMap_cons

theorem Tiles.length {jobs : List (Job α)} {start stop : Nat} (tiles : Tiles start jobs stop) :
    start + (itemsOf jobs).length = stop := by
  induction jobs generalizing start with
  | nil => exact tiles
  | cons job jobs ih =>
      have rest := ih tiles.2
      rw [itemsOf_cons, List.length_append]
      omega

/-- A job stands behind the items of those before it. -/
theorem Tiles.offset {front back : List (Job α)} {job : Job α} {start stop : Nat}
    (tiles : Tiles start (front ++ job :: back) stop) :
    job.offset = start + (itemsOf front).length ∧ job.offset + job.items.length ≤ stop := by
  induction front generalizing start with
  | nil =>
      have total := tiles.2.length
      have here := tiles.1
      simp only [itemsOf_nil, List.length_nil, Nat.add_zero]
      omega
  | cons first front ih =>
      obtain ⟨place, fits⟩ := ih tiles.2
      rw [itemsOf_cons, List.length_append]
      omega

theorem Tiles.inside {jobs : List (Job α)} {start stop : Nat} (tiles : Tiles start jobs stop) {job : Job α}
    (member : job ∈ jobs) : job.offset + job.items.length ≤ stop := by
  obtain ⟨front, back, rfl⟩ := List.append_of_mem member
  exact tiles.offset.2

end Tiles

section Fill

/-- Filling the slots behind those that are filled. -/
theorem fill_eq {offset i empty : Nat} {made : List β} {front : List (Option β)} {written : List Nat}
    (place : front.length = offset + i) (room : made.length ≤ empty) :
    fill offset i made (front ++ List.replicate empty none) written =
      some (front ++ made.map some ++ List.replicate (empty - made.length) none,
        written ++ List.range' (offset + i) made.length) := by
  induction made generalizing i front empty written with
  | nil => simp [fill]
  | cons result made ih =>
      rw [List.length_cons] at room
      obtain ⟨empty, rfl⟩ : ∃ fewer, empty = fewer + 1 := ⟨empty - 1, by omega⟩
      have stored : store (front ++ List.replicate (empty + 1) none) (offset + i) (some result) =
          some (front ++ [some result] ++ List.replicate empty none) := by
        rw [store_eq (by simp [← place]), ← place]
        simp [List.replicate_succ]
      have longer : (front ++ [some result]).length = offset + (i + 1) := by
        rw [List.length_append, place]
        rfl
      rw [fill, stored, Option.bind_eq_bind, Option.bind_some, ih longer (by omega)]
      simp [List.range'_succ, Nat.add_assoc]

end Fill

section Invariant

variable {f : α → β} {jobs joined active : List (Job α)} {count : Nat} {s s' : Running α β}

/-- What a worker has made and has left is its job. -/
structure Worker.Does (f : α → β) (worker : Worker α β) (job : Job α) : Prop where
  offset : worker.offset = job.offset
  results : worker.made ++ worker.left.map f = job.items.map f

/-- Some jobs are joined and their results in their slots, some are with workers, and the
    rest is waiting. -/
structure Holds (f : α → β) (jobs : List (Job α)) (count : Nat) (joined active : List (Job α)) (s : Running α β) :
    Prop where
  jobs : joined ++ (active ++ s.waiting) = jobs
  workers : List.Forall₂ (Worker.Does f) s.workers active
  slots : s.slots = ((itemsOf joined).map f).map some ++ List.replicate (count - (itemsOf joined).length) none
  written : s.written = List.range (itemsOf joined).length

theorem Holds.spawn (holds : Holds f jobs count joined active s) (taken : s.spawn = some s') :
    ∃ active', Holds f jobs count joined active' s' := by
  obtain ⟨whole, workers, slots, written⟩ := holds
  cases waiting : s.waiting with
  | nil => simp [Running.spawn, waiting] at taken
  | cons job rest =>
      simp only [Running.spawn, waiting, Option.some.injEq] at taken
      subst taken
      rw [waiting] at whole
      refine ⟨active ++ [job], ?_, ?_, slots, written⟩
      · rw [← whole, List.append_assoc active, List.singleton_append]
      · exact List.rel_append workers (.cons ⟨rfl, List.nil_append _⟩ .nil)

theorem Worker.Does.work {worker worker' : Worker α β} {job : Job α} (does : worker.Does f job)
    (taken : worker.work f = some worker') : worker'.Does f job := by
  obtain ⟨offset, results⟩ := does
  cases left : worker.left with
  | nil => simp [Worker.work, left] at taken
  | cons item rest =>
      simp only [Worker.work, left, Option.some.injEq] at taken
      subst taken
      refine ⟨offset, ?_⟩
      rw [← results, left]
      simp

/-- One related element in the place of another. -/
theorem forall₂_set {γ δ : Type} {R : γ → δ → Prop} {xs : List γ} {ys : List δ} (related : List.Forall₂ R xs ys) {i : Nat}
    {x x' : γ} (here : xs[i]? = some x) (kept : ∀ y, R x y → R x' y) : List.Forall₂ R (xs.set i x') ys := by
  induction related generalizing i with
  | nil => cases here
  | cons first rest ih =>
      cases i with
      | zero =>
          cases here
          exact .cons (kept _ first) rest
      | succ i => exact .cons first (ih here)

theorem Holds.work {i : Nat} (holds : Holds f jobs count joined active s) (taken : s.work f i = some s') :
    Holds f jobs count joined active s' := by
  obtain ⟨worker, here, taken⟩ := Option.bind_eq_some_iff.mp taken
  obtain ⟨worker', next, taken⟩ := Option.bind_eq_some_iff.mp taken
  cases taken
  exact { holds with workers := forall₂_set holds.workers here fun _ does => does.work next }

/-- The first worker's results are written behind those of the jobs before it, into slots
    that exist. -/
theorem Holds.join (holds : Holds f jobs count joined active s) (tiles : Tiles 0 jobs count) {after : State α β}
    (taken : s.join = some after) :
    ∃ s' joined' active', after = .running s' ∧ Holds f jobs count joined' active' s' := by
  obtain ⟨waiting, pool, slots, written⟩ := s
  obtain ⟨whole, workers, filled, places⟩ := holds
  dsimp only at whole workers filled places
  cases waiting with
  | cons job rest => cases taken
  | nil =>
      cases workers with
      | nil => cases taken
      | @cons worker job pool rest does others =>
          obtain ⟨offset, left, made⟩ := worker
          cases left with
          | cons item left => cases taken
          | nil =>
              obtain ⟨offset_eq, results⟩ := does
              dsimp only at offset_eq results
              rw [List.append_nil] at whole
              rw [List.map_nil, List.append_nil] at results
              obtain ⟨place, fits⟩ := (whole ▸ tiles : Tiles 0 (joined ++ job :: rest) count).offset
              have length : made.length = job.items.length := by rw [results, List.length_map]
              rw [Nat.zero_add] at place
              have front : (((itemsOf joined).map f).map some).length = offset + 0 := by
                rw [List.length_map, List.length_map, offset_eq, place, Nat.add_zero]
              have full := @fill_eq β offset 0 (count - (itemsOf joined).length) made _ written front (by omega)
              rw [← filled] at full
              simp only [Running.join, full, Option.some.injEq] at taken
              refine ⟨_, joined ++ [job], rest, taken.symm, ?_, others, ?_, ?_⟩
              · rw [List.append_nil, List.append_assoc, List.singleton_append]
                exact whole
              · simp [results, Nat.sub_sub]
              · simp [places, offset_eq, place, results, range_append]

theorem mapM_map_some (results : List β) : (results.map some).mapM id = some results := by
  induction results with
  | nil => rfl
  | cons result results ih => simp [ih]

/-- With every job joined no slot is empty. -/
theorem Holds.collect (holds : Holds f jobs count joined active s) (tiles : Tiles 0 jobs count) {after : State α β}
    (taken : s.collect = some after) : after = .returned ((itemsOf jobs).map f) (List.range count) := by
  obtain ⟨waiting, pool, slots, written⟩ := s
  obtain ⟨whole, workers, filled, places⟩ := holds
  dsimp only at whole workers filled places
  cases waiting with
  | cons job rest => cases taken
  | nil =>
      cases workers with
      | cons first rest => cases taken
      | nil =>
          rw [List.append_nil, List.append_nil] at whole
          subst whole
          have all := tiles.length
          rw [Nat.zero_add] at all
          rw [all, Nat.sub_self, List.replicate_zero, List.append_nil] at filled
          simp only [Running.collect, filled, mapM_map_some, places, all, Option.some.injEq] at taken
          exact taken.symm

/-- What is known of every state of a run: it is not a panic, and what is returned is the
    results in order, each slot written once. -/
def Good (f : α → β) (jobs : List (Job α)) (count : Nat) : State α β → Prop
  | .running s => ∃ joined active, Holds f jobs count joined active s
  | .returned results written => results = (itemsOf jobs).map f ∧ written = List.range count
  | .panicked => False

theorem good_start : Good f jobs count (start jobs count) := ⟨[], [], rfl, .nil, rfl, rfl⟩

theorem Good.step (tiles : Tiles 0 jobs count) {before after : State α β} (good : Good f jobs count before)
    {action : Action} (taken : step f before action = some after) : Good f jobs count after := by
  cases before with
  | returned results written => cases action <;> cases taken
  | panicked => cases good
  | running s =>
      obtain ⟨joined, active, holds⟩ := good
      cases action with
      | spawn =>
          obtain ⟨s', spawned, rfl⟩ := Option.map_eq_some_iff.mp taken
          obtain ⟨active', holds'⟩ := holds.spawn spawned
          exact ⟨joined, active', holds'⟩
      | work i =>
          obtain ⟨s', worked, rfl⟩ := Option.map_eq_some_iff.mp taken
          exact ⟨joined, active, holds.work worked⟩
      | join =>
          obtain ⟨s', joined', active', rfl, holds'⟩ := holds.join tiles taken
          exact ⟨joined', active', holds'⟩
      | collect =>
          have last := holds.collect tiles taken
          subst last
          exact ⟨rfl, rfl⟩

theorem Good.run (tiles : Tiles 0 jobs count) {schedule : List Action} {before after : State α β}
    (good : Good f jobs count before) (ran : run f before schedule = some after) : Good f jobs count after := by
  induction schedule generalizing before with
  | nil =>
      cases ran
      exact good
  | cons action schedule ih =>
      obtain ⟨next, taken, later⟩ := Option.bind_eq_some_iff.mp ran
      exact ih (good.step tiles taken) later

end Invariant

section Progress

variable {f : α → β}

/-- A run that has not returned can go on. -/
theorem progress (s : Running α β) : ∃ action after, step f (.running s) action = some after := by
  obtain ⟨waiting, workers, slots, written⟩ := s
  cases waiting with
  | cons job rest => exact ⟨.spawn, _, rfl⟩
  | nil =>
      cases workers with
      | nil =>
          refine ⟨.collect, ?_⟩
          cases filled : slots.mapM id <;> simp [step, Running.collect, filled]
      | cons worker pool =>
          obtain ⟨offset, left, made⟩ := worker
          cases left with
          | cons item left => exact ⟨.work 0, _, rfl⟩
          | nil =>
              refine ⟨.join, ?_⟩
              cases written : fill offset 0 made slots written <;> simp [step, Running.join, written]

def Running.remaining (s : Running α β) : Nat :=
  (s.waiting.map fun job => job.items.length + 2).sum + (s.workers.map fun worker => worker.left.length + 1).sum + 1

/-- How many steps are left. -/
def remaining : State α β → Nat
  | .running s => s.remaining
  | .returned _ _ => 0
  | .panicked => 0

theorem Running.remaining_spawn {s s' : Running α β} (taken : s.spawn = some s') : s'.remaining + 1 = s.remaining := by
  obtain ⟨waiting, workers, slots, written⟩ := s
  cases waiting with
  | nil => cases taken
  | cons job rest =>
      cases taken
      simp [Running.remaining]
      omega

/-- Replacing an element of a list. -/
theorem sum_map_set {γ : Type} (size : γ → Nat) {xs : List γ} {i : Nat} {x x' : γ} (here : xs[i]? = some x)
    (smaller : size x' + 1 = size x) : ((xs.set i x').map size).sum + 1 = (xs.map size).sum := by
  induction xs generalizing i with
  | nil => cases here
  | cons first rest ih =>
      cases i with
      | zero =>
          cases here
          simp [← smaller]
          omega
      | succ i =>
          have later := ih here
          simp [← later]
          omega

theorem Running.remaining_work {s s' : Running α β} {i : Nat} (taken : s.work f i = some s') :
    s'.remaining + 1 = s.remaining := by
  obtain ⟨worker, here, taken⟩ := Option.bind_eq_some_iff.mp taken
  obtain ⟨worker', next, taken⟩ := Option.bind_eq_some_iff.mp taken
  have fewer : worker'.left.length + 1 + 1 = worker.left.length + 1 := by
    obtain ⟨offset, left, made⟩ := worker
    cases left with
    | nil => cases next
    | cons item left =>
        cases next
        rfl
  have sum := sum_map_set (fun worker : Worker α β => worker.left.length + 1) here fewer
  cases taken
  simp only [Running.remaining, ← sum]
  omega

theorem Running.remaining_join {s : Running α β} {after : State α β} (taken : s.join = some after)
    (safe : after ≠ .panicked) : ForkJoin.remaining after + 1 = s.remaining := by
  obtain ⟨waiting, workers, slots, written⟩ := s
  cases waiting with
  | cons job rest => cases taken
  | nil =>
      cases workers with
      | nil => cases taken
      | cons worker pool =>
          obtain ⟨offset, left, made⟩ := worker
          cases left with
          | cons item left => cases taken
          | nil =>
              cases full : fill offset 0 made slots written with
              | none =>
                  simp only [Running.join, full, Option.some.injEq] at taken
                  exact absurd taken.symm safe
              | some after =>
                  simp only [Running.join, full, Option.some.injEq] at taken
                  subst taken
                  simp [ForkJoin.remaining, Running.remaining]
                  omega

theorem Running.remaining_collect {s : Running α β} {after : State α β} (taken : s.collect = some after) :
    ForkJoin.remaining after + 1 = s.remaining := by
  obtain ⟨waiting, workers, slots, written⟩ := s
  cases waiting with
  | cons job rest => cases taken
  | nil =>
      cases workers with
      | cons worker pool => cases taken
      | nil =>
          cases full : slots.mapM id <;> simp only [Running.collect, full, Option.some.injEq] at taken <;> subst taken <;> rfl

/-- Every step of a run that does not panic is one fewer to go. -/
theorem remaining_step {before after : State α β} {action : Action} (taken : step f before action = some after)
    (safe : after ≠ .panicked) : remaining after + 1 = remaining before := by
  cases before with
  | returned results written => cases action <;> cases taken
  | panicked => cases action <;> cases taken
  | running s =>
      cases action with
      | spawn =>
          obtain ⟨s', spawned, rfl⟩ := Option.map_eq_some_iff.mp taken
          exact Running.remaining_spawn spawned
      | work i =>
          obtain ⟨s', worked, rfl⟩ := Option.map_eq_some_iff.mp taken
          exact Running.remaining_work worked
      | join => exact Running.remaining_join taken safe
      | collect => exact Running.remaining_collect taken

/-- A run of jobs that tile the slots is as long as the steps it has used up. -/
theorem Good.length {jobs : List (Job α)} {count : Nat} (tiles : Tiles 0 jobs count) {schedule : List Action}
    {before after : State α β} (good : Good f jobs count before) (ran : ForkJoin.run f before schedule = some after) :
    schedule.length + remaining after = remaining before := by
  induction schedule generalizing before with
  | nil =>
      cases ran
      exact Nat.zero_add _
  | cons action schedule ih =>
      obtain ⟨next, taken, later⟩ := Option.bind_eq_some_iff.mp ran
      have good' := good.step tiles taken
      have safe : next ≠ .panicked := by
        rintro rfl
        exact good'
      have rest := ih good' later
      have one := remaining_step taken safe
      rw [List.length_cons]
      omega

theorem run_append (schedule more : List Action) (before : State α β) :
    run f before (schedule ++ more) = (run f before schedule).bind fun s => run f s more := List.foldlM_append

theorem run_cons {action : Action} {before next : State α β} (taken : step f before action = some next)
    (more : List Action) : run f before (action :: more) = run f next more := by
  rw [run, List.foldlM_cons, taken]
  rfl

/-- From every state of a run of jobs that tile the slots the threads can go on to the end. -/
theorem Good.finishes {jobs : List (Job α)} {count : Nat} (tiles : Tiles 0 jobs count) {before : State α β}
    (good : Good f jobs count before) :
    ∃ more results written, ForkJoin.run f before more = some (.returned results written) := by
  induction left : remaining before using Nat.strong_induction_on generalizing before with
  | _ _ ih =>
    subst left
    cases before with
    | returned results written => exact ⟨[], results, written, rfl⟩
    | panicked => cases good
    | running s =>
        obtain ⟨action, next, taken⟩ := @progress _ _ f s
        have good' := good.step tiles taken
        have safe : next ≠ .panicked := by
          rintro rfl
          exact good'
        have one := remaining_step taken safe
        obtain ⟨more, results, written, ran⟩ := ih _ (by omega) good' rfl
        exact ⟨action :: more, results, written, (run_cons taken more).trans ran⟩

/-- Each job is handed out and joined, and each item is worked on. -/
theorem remaining_start (jobs : List (Job α)) (count : Nat) :
    remaining (start jobs count : State α β) = (itemsOf jobs).length + 2 * jobs.length + 1 := by
  have sum : (jobs.map fun job => job.items.length + 2).sum = (itemsOf jobs).length + 2 * jobs.length := by
    induction jobs with
    | nil => rfl
    | cons job jobs ih =>
        simp [ih]
        omega
  simp [start, remaining, Running.remaining, sum]

end Progress

end Blindplane.Lib.ForkJoin
