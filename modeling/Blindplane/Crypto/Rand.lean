import Blindplane.Crypto.Client
import Blindplane.Lib.Blocks

/-! # Operating-system entropy

One request of the crate is a row of kernel calls, of 256 bytes at most. Where one of them
fails, everything drawn so far is thrown away and the whole buffer is read from a device.
-/

namespace Blindplane.Crypto.Rand

open Lib

/-- The operating system refused to provide entropy. -/
structure RandomError where
  deriving DecidableEq, Repr

/-- What the operating system does to a buffer of some length: whether it succeeds, and what
    the buffer holds then, also where it fails half-way. -/
structure Kernel where
  getentropy : (call : Nat) → (length : Nat) → Bool × Vector UInt8 length
  urandom : (length : Nat) → Bool × Vector UInt8 length

section Routines

variable (kernel : Kernel)

/-- The loop of `fill`: the pieces after it, and whether all of them were drawn. -/
def fillChunks : (call : Nat) → List Bytes → Bool × List Bytes
  | _, [] => (true, [])
  | call, chunk :: rest =>
      let (done, bytes) := kernel.getentropy call chunk.length
      if done then
        let (all, others) := fillChunks (call + 1) rest
        (all, bytes.toList :: others)
      else (false, bytes.toList :: rest)

/-- Fallback for systems whose libc lacks `getentropy`. -/
def fillFromDevUrandom (buffer : Bytes) : Except RandomError Unit × Bytes :=
  let (done, bytes) := kernel.urandom buffer.length
  (if done then .ok () else .error {}, bytes.toList)

/-- Fill a buffer with random bytes. -/
def fill (buffer : Bytes) : Except RandomError Unit × Bytes :=
  let (all, pieces) := fillChunks kernel 0 (chunks 256 buffer)
  if all then (.ok (), pieces.flatten) else fillFromDevUrandom kernel pieces.flatten

/-- A fresh 32-byte secret. -/
def secret32 : Except RandomError (Vector UInt8 32) :=
  let (result, bytes) := fill kernel (List.replicate 32 0)
  result.map fun _ => fixed 32 bytes

end Routines

section Requests

/-- How long the kernel calls for a buffer are. -/
def requests (length : Nat) : List Nat :=
  List.replicate (length / 256) 256 ++ if length % 256 = 0 then [] else [length % 256]

theorem requests_within {length size : Nat} (member : size ∈ requests length) : 0 < size ∧ size ≤ 256 := by
  rcases List.mem_append.mp member with whole | rest
  · rw [List.eq_of_mem_replicate whole]
    decide
  · split at rest
    · cases rest
    · next partly =>
      obtain rfl := List.mem_singleton.mp rest
      omega

theorem sum_requests (length : Nat) : (requests length).sum = length := by
  rw [requests, List.sum_append, List.sum_replicate_nat]
  split <;> simp <;> omega

theorem requests_of_pos {length : Nat} (positive : 0 < length) :
    requests length = min 256 length :: requests (length - 256) := by
  by_cases short : length < 256
  · have rest : length - 256 = 0 := by omega
    rw [rest, min_eq_right short.le, requests, Nat.div_eq_of_lt short, Nat.mod_eq_of_lt short, if_neg positive.ne']
    rfl
  · obtain ⟨rest, rfl⟩ := Nat.exists_eq_add_of_le' (not_lt.mp short)
    rw [Nat.add_sub_cancel, min_eq_left (Nat.le_add_left 256 rest), requests, requests,
      Nat.add_div_right rest (by decide), Nat.add_mod_right, List.replicate_succ, List.cons_append]

/-- The pieces of a buffer are as long as the calls for it. -/
theorem map_length_chunks (buffer : Bytes) : (chunks 256 buffer).map List.length = requests buffer.length := by
  induction buffer using chunks.induct 256 with
  | case1 buffer done =>
      obtain rfl | impossible := done
      · rw [chunks_nil]
        rfl
      · cases impossible
  | case2 buffer more ih =>
      have nonempty := (not_or.mp more).1
      rw [chunks_of_ne_nil (by decide) nonempty, List.map_cons, ih, List.length_take, List.length_drop,
        requests_of_pos (List.length_pos_iff.mpr nonempty)]

end Requests

section Outcomes

variable (kernel : Kernel)

/-- The calls for the pieces, each with its number. -/
def Answered (first : Nat) (sizes : List Nat) : Prop :=
  ∀ request ∈ sizes.zipIdx first, (kernel.getentropy request.2 request.1).1 = true

instance (first : Nat) (sizes : List Nat) : Decidable (Answered kernel first sizes) :=
  inferInstanceAs (Decidable (∀ request ∈ sizes.zipIdx first, _))

/-- What the calls for the pieces wrote, one after the other. -/
def drawn (first : Nat) (sizes : List Nat) : Bytes :=
  (sizes.zipIdx first).flatMap fun request => (kernel.getentropy request.2 request.1).2.toList

variable {kernel}

/-- The loop goes on as long as the calls succeed, and keeps the pieces as long as they were. -/
theorem fillChunks_spec (kernel : Kernel) (call : Nat) (pieces : List Bytes) :
    (fillChunks kernel call pieces).2.map List.length = pieces.map List.length ∧
      ((fillChunks kernel call pieces).1 = true ↔ Answered kernel call (pieces.map List.length)) ∧
      (Answered kernel call (pieces.map List.length) →
        (fillChunks kernel call pieces).2.flatten = drawn kernel call (pieces.map List.length)) := by
  induction pieces generalizing call with
  | nil => simp [fillChunks, Answered, drawn]
  | cons chunk rest ih =>
      obtain ⟨lengths, all, bytes⟩ := ih (call + 1)
      simp only [fillChunks, Answered, drawn, List.map_cons, List.zipIdx_cons, List.forall_mem_cons,
        List.flatMap_cons] at all bytes ⊢
      cases done : (kernel.getentropy call chunk.length).1 with
      | true => simp_all
      | false => simp

theorem fillFromDevUrandom_eq {buffer : Bytes} {n : Nat} (length : buffer.length = n) :
    fillFromDevUrandom kernel buffer =
      (if (kernel.urandom n).1 then .ok () else .error {}, (kernel.urandom n).2.toList) := by
  subst length
  rfl

/-- Either every piece is drawn, or all of the buffer is read. -/
theorem fill_spec (kernel : Kernel) (buffer : Bytes) :
    ((∀ size ∈ requests buffer.length, 0 < size ∧ size ≤ 256) ∧ (requests buffer.length).sum = buffer.length) ∧
    (Answered kernel 0 (requests buffer.length) →
      fill kernel buffer = (.ok (), drawn kernel 0 (requests buffer.length))) ∧
    (¬ Answered kernel 0 (requests buffer.length) → fill kernel buffer =
      (if (kernel.urandom buffer.length).1 then .ok () else .error {}, (kernel.urandom buffer.length).2.toList)) := by
  obtain ⟨lengths, all, bytes⟩ := fillChunks_spec kernel 0 (chunks 256 buffer)
  rw [map_length_chunks] at lengths all bytes
  refine ⟨⟨fun size member => requests_within member, sum_requests _⟩, fun answered => ?_, fun failed => ?_⟩
  · rw [fill]
    simp only [all.mpr answered, if_true, bytes answered]
  · have length : (fillChunks kernel 0 (chunks 256 buffer)).2.flatten.length = buffer.length := by
      rw [List.length_flatten, lengths, sum_requests]
    have stopped : (fillChunks kernel 0 (chunks 256 buffer)).1 = false := by
      rw [← Bool.not_eq_true, all]
      exact failed
    rw [fill]
    simp only [stopped, Bool.false_eq_true, if_false, fillFromDevUrandom_eq length]

/-- The requests of a client, each with the kernel as it is then, as a source of entropy. -/
def source (kernels : Nat → Kernel) : Entropy := fun request n =>
  match fill (kernels request) (List.replicate n 0) with
  | (.ok (), bytes) => some (fixed n bytes)
  | (.error _, _) => none

/-- A request is refused where a kernel call fails and the device cannot be read either. -/
theorem source_eq_none {kernels : Nat → Kernel} {request n : Nat} :
    source kernels request n = none ↔
      ¬ Answered (kernels request) 0 (requests n) ∧ ((kernels request).urandom n).1 = false := by
  obtain ⟨-, drawn, read⟩ := fill_spec (kernels request) (List.replicate n 0)
  rw [List.length_replicate] at drawn read
  rw [source]
  by_cases answered : Answered (kernels request) 0 (requests n)
  · rw [drawn answered]
    exact iff_of_false nofun fun both => both.1 answered
  · rw [read answered]
    cases ((kernels request).urandom n).1 <;> simp [answered]

/-- A secret is one request for 32 bytes. -/
theorem secret32_eq : (secret32 kernel).toOption = source (fun _ => kernel) 0 32 := by
  simp only [secret32, source]
  rcases fill kernel (List.replicate 32 0) with ⟨_ | _, bytes⟩ <;> rfl

/-- The whole buffer is drawn call by call, at most 256 bytes each; or, where a call fails, all
    of it is read from the device. Nothing that was in the buffer before is left and nothing
    drawn before a failure, so that a request is a draw from a source of entropy, which is
    refused where both ways fail. -/
theorem entropy_exact (kernels : Nat → Kernel) (request : Nat) (buffer : Bytes) :
    let kernel := kernels request
    let n := buffer.length
    ((∀ size ∈ requests n, 0 < size ∧ size ≤ 256) ∧ (requests n).sum = n) ∧
    fill kernel buffer =
      (if Answered kernel 0 (requests n) then (.ok (), drawn kernel 0 (requests n))
      else if (kernel.urandom n).1 then (.ok (), (kernel.urandom n).2.toList)
      else (.error {}, (kernel.urandom n).2.toList)) ∧
    source kernels request n = (fill kernel buffer).1.toOption.map (fun _ => fixed n (fill kernel buffer).2) ∧
    (source kernels request n = none ↔
      ¬ Answered kernel 0 (requests n) ∧ (kernel.urandom n).1 = false) := by
  intro kernel n
  obtain ⟨sizes, answered, read⟩ := fill_spec kernel buffer
  obtain ⟨-, answered', read'⟩ := fill_spec kernel (List.replicate n 0)
  rw [List.length_replicate] at answered' read'
  have fresh : fill kernel (List.replicate n 0) = fill kernel buffer := by
    by_cases all : Answered kernel 0 (requests n)
    · rw [answered all, answered' all]
    · rw [read all, read' all]
  refine ⟨sizes, ?_, ?_, source_eq_none⟩
  · split
    · next all => exact answered all
    · next failed =>
      rw [read failed]
      split <;> rfl
  · rw [source, fresh]
    rcases fill kernel buffer with ⟨_ | _, bytes⟩ <;> rfl

end Outcomes

end Blindplane.Crypto.Rand
