import Blindplane.Wire.Acceptance

/-! # Cut and extended encodings

Every reader of the cursor decides by what it has read, and asks for more only when there
is no more. A record that breaks off anywhere is therefore reported as truncated, and one
that goes on as having trailing bytes, whatever was cut or added.
-/

namespace Blindplane.Wire

open Lib Lib.Utf8 Lib.Checked Crypto Cursor

/-- A reader that reads forward, and does on the beginning of an input what it does on the
    whole, until it needs what is not there. -/
structure Streams {α : Type} (reader : Reader α) : Prop where
  moves : ∀ {cursor a next}, reader.run cursor = .ok (a, next) →
    next.bytes = cursor.bytes ∧ cursor.offset ≤ next.offset
  cut : ∀ {whole part : Bytes} {offset a next}, part <+: whole → offset ≤ part.length →
    reader.run ⟨whole, offset⟩ = .ok (a, next) →
      reader.run ⟨part, offset⟩ =
        if next.offset ≤ part.length then .ok (a, ⟨part, next.offset⟩) else .error (.error .truncated)
  extend : ∀ {whole part : Bytes} {offset a next}, part <+: whole → reader.run ⟨part, offset⟩ = .ok (a, next) →
    reader.run ⟨whole, offset⟩ = .ok (a, ⟨whole, next.offset⟩)

namespace Streams

variable {α β : Type}

theorem pure (a : α) : Streams (Pure.pure a : Reader α) where
  moves {cursor b next} ran := by
    obtain ⟨-, rfl⟩ := Process.pure_eq_ok.mp ran
    exact ⟨rfl, Nat.le_refl _⟩
  cut {whole part offset b next} _ inside ran := by
    obtain ⟨rfl, rfl⟩ := Process.pure_eq_ok.mp ran
    rw [if_pos inside]
    rfl
  extend {whole part offset b next} _ ran := by
    obtain ⟨rfl, rfl⟩ := Process.pure_eq_ok.mp ran
    rfl

/-- What does not look at the input does the same on any input. -/
theorem embed (x : Except (Fault WireError) α) : Streams (Process.embed x : Reader α) := by
  cases x with
  | ok a => exact Streams.pure a
  | error e =>
      exact
        { moves := fun failed => nomatch (Process.embed_eq_ok.mp failed).1
          cut := fun _ _ failed => nomatch (Process.embed_eq_ok.mp failed).1
          extend := fun _ failed => nomatch (Process.embed_eq_ok.mp failed).1 }

theorem ensure (condition : Prop) [Decidable condition] (error : Fault WireError) :
    Streams (Process.ensure condition error : Reader Unit) := by
  by_cases holds : condition
  · have passed : (Process.ensure condition error : Reader Unit) = Pure.pure () := by
      funext cursor
      exact if_pos holds
    rw [passed]
    exact Streams.pure ()
  · exact
      { moves := fun failed => absurd (Process.ensure_eq_ok.mp failed).1 holds
        cut := fun _ _ failed => absurd (Process.ensure_eq_ok.mp failed).1 holds
        extend := fun _ failed => absurd (Process.ensure_eq_ok.mp failed).1 holds }

theorem bind {p : Reader α} {q : α → Reader β} (first : Streams p) (second : ∀ a, Streams (q a)) :
    Streams (p >>= q) where
  moves {cursor b next} ran := by
    obtain ⟨a, mid, here, there⟩ := Process.bind_eq_ok.mp ran
    obtain ⟨bytes, forward⟩ := first.moves here
    obtain ⟨bytes', forward'⟩ := (second a).moves there
    exact ⟨bytes'.trans bytes, forward.trans forward'⟩
  cut {whole part offset b next} starts inside ran := by
    obtain ⟨a, ⟨bytes, mid⟩, here, there⟩ := Process.bind_eq_ok.mp ran
    obtain ⟨rfl, forward⟩ := first.moves here
    obtain ⟨-, forward'⟩ := (second a).moves there
    have cutHere := first.cut starts inside here
    rw [StateT.run_bind]
    by_cases reaches : mid ≤ part.length
    · rw [cutHere, if_pos reaches]
      exact (second a).cut starts reaches there
    · have beyond : ¬ next.offset ≤ part.length := fun within => reaches (forward'.trans within)
      rw [cutHere, if_neg reaches, if_neg beyond]
      rfl
  extend {whole part offset b next} starts ran := by
    obtain ⟨a, ⟨bytes, mid⟩, here, there⟩ := Process.bind_eq_ok.mp ran
    obtain ⟨rfl, -⟩ := first.moves here
    exact Process.bind_eq_ok.mpr ⟨a, _, first.extend starts here, (second a).extend starts there⟩

theorem times {p : Reader α} (item : Streams p) (count : Nat) : Streams (Process.times count p) := by
  induction count with
  | zero => exact Streams.pure []
  | succ count ih => exact item.bind fun x => ih.bind fun xs => Streams.pure (x :: xs)

/-- What lies within the beginning of an input is the same in both. -/
theorem rest_take {whole part : Bytes} (starts : part <+: whole) {offset len : Nat}
    (within : offset + len ≤ part.length) :
    (Cursor.mk whole offset).rest.take len = (Cursor.mk part offset).rest.take len := by
  obtain ⟨extra, rfl⟩ := starts
  rw [Cursor.rest, Cursor.rest, List.drop_append_of_le_length (Nat.le_of_add_right_le within),
    List.take_append_of_le_length (by rw [List.length_drop]; omega)]

theorem takeExact (len : Nat) : Streams (Cursor.takeExact len) where
  moves {cursor bytes next} ran := by
    rw [Parses.takeExact_run] at ran
    split at ran
    · obtain ⟨-, rfl⟩ := Prod.mk.inj (Except.ok.inj ran)
      exact ⟨rfl, Nat.le_add_right _ _⟩
    · cases ran
  cut {whole part offset bytes next} starts inside ran := by
    rw [Parses.takeExact_run] at ran ⊢
    split at ran
    · obtain ⟨rfl, rfl⟩ := Prod.mk.inj (Except.ok.inj ran)
      split
      · next within => rw [rest_take starts within]
      · rfl
    · cases ran
  extend {whole part offset bytes next} starts ran := by
    rw [Parses.takeExact_run] at ran ⊢
    split at ran
    · next within =>
      obtain ⟨rfl, rfl⟩ := Prod.mk.inj (Except.ok.inj ran)
      rw [if_pos (show offset + len ≤ whole.length from Nat.le_trans within starts.length_le), rest_take starts within]
    · cases ran

section Fields

variable (policy : ValidationPolicy)

theorem takeArray (n : Nat) : Streams (Cursor.takeArray n) := (takeExact n).bind fun _ => embed _

theorem takeU8 : Streams Cursor.takeU8 := (takeExact 1).bind fun _ => embed _

theorem takeU16 : Streams Cursor.takeU16 := (takeArray 2).bind fun _ => pure _

theorem takeU32 : Streams Cursor.takeU32 := (takeArray 4).bind fun _ => pure _

theorem takeU64 : Streams Cursor.takeU64 := (takeArray 8).bind fun _ => pure _

theorem takeBytes : Streams (Cursor.takeBytes policy) :=
  takeU64.bind fun _ => (ensure _ _).bind fun _ => takeExact _

theorem takeString : Streams (Cursor.takeString policy) :=
  (takeBytes policy).bind fun _ => (ensure _ _).bind fun _ => embed _

theorem takeLen (most : Usize) : Streams (Cursor.takeLen most) :=
  takeU64.bind fun _ => (ensure _ _).bind fun _ => pure _

theorem recipientFields : Streams (Wire.recipientFields policy) :=
  (takeString policy).bind fun _ => takeU64.bind fun _ => (takeArray 32).bind fun _ =>
    (takeBytes policy).bind fun _ => (takeBytes policy).bind fun _ => pure _

theorem indexFields : Streams (Wire.indexFields policy) :=
  (takeString policy).bind fun _ => takeU32.bind fun _ => (takeString policy).bind fun _ => takeU16.bind fun _ =>
    takeU64.bind fun _ => (takeArray INDEX_TOKEN_LEN).bind fun _ => pure _

theorem recordFields (alloc : Allocator) : Streams (Wire.recordFields policy alloc) :=
  (takeBytes policy).bind fun _ => (ensure _ _).bind fun _ => takeU16.bind fun _ => (ensure _ _).bind fun _ =>
    takeU8.bind fun _ => (embed _).bind fun _ => (takeBytes policy).bind fun _ => (embed _).bind fun _ =>
    takeU64.bind fun _ => (takeArray 32).bind fun _ => (takeArray 32).bind fun _ => (takeBytes policy).bind fun _ =>
    (takeBytes policy).bind fun _ => (takeLen _).bind fun _ => (ensure _ _).bind fun _ =>
    ((recipientFields policy).times _).bind fun _ => (takeLen _).bind fun _ => (ensure _ _).bind fun _ =>
    ((indexFields policy).times _).bind fun _ => (takeArray 32).bind fun _ => (takeBytes policy).bind fun _ => pure _

end Fields

theorem readAll_ran {reader : Reader α} {bytes : Bytes} {a : α} :
    readAll reader bytes = .ok a ↔
      ∃ next, reader.run ⟨bytes, 0⟩ = .ok (a, next) ∧ next.offset = next.bytes.length := by
  simp only [readAll, Cursor.new, Checked.bind_eq_ok, Checked.pure_eq_ok, Cursor.isEmpty, Prod.exists]
  constructor
  · rintro ⟨value, next, ran, _, empty, rfl⟩
    exact ⟨next, ran, by simpa using empty⟩
  · rintro ⟨next, ran, empty⟩
    exact ⟨a, next, ran, (), by simpa using empty, rfl⟩

/-- What is read to the end of an input breaks off on any beginning of it. -/
theorem readAll_cut {reader : Reader α} (streams : Streams reader) {whole : Bytes} {a : α}
    (read : readAll reader whole = .ok a) {part : Bytes} (starts : part <+: whole)
    (short : part.length < whole.length) : readAll reader part = .error (.error .truncated) := by
  obtain ⟨next, ran, atEnd⟩ := readAll_ran.mp read
  obtain ⟨bytes, -⟩ := streams.moves ran
  have beyond : ¬ next.offset ≤ part.length := by
    rw [atEnd, bytes]
    exact Nat.not_le.mpr short
  have cut := streams.cut starts (Nat.zero_le _) ran
  rw [if_neg beyond] at cut
  rw [readAll, Cursor.new, cut]
  rfl

/-- What is read to the end of an input leaves the rest of any extension. -/
theorem readAll_extend {reader : Reader α} (streams : Streams reader) {part : Bytes} {a : α}
    (read : readAll reader part = .ok a) {extra : Bytes} (more : extra ≠ []) :
    readAll reader (part ++ extra) = .error (.error .trailingBytes) := by
  obtain ⟨next, ran, atEnd⟩ := readAll_ran.mp read
  obtain ⟨bytes, -⟩ := streams.moves ran
  have extended := streams.extend (List.prefix_append part extra) ran
  have unread : ¬ next.offset = (part ++ extra).length := by
    have length := List.length_pos_iff.mpr more
    rw [atEnd, bytes, List.length_append]
    exact Nat.ne_of_lt (Nat.lt_add_of_pos_right length)
  rw [readAll, Cursor.new, extended]
  simp only [ok_bind, Cursor.isEmpty, unread, decide_false, Bool.not_false]
  rfl

end Streams

variable [Primitives]

/-- An accepted encoding that breaks off anywhere is truncated, and one that goes on has
    trailing bytes. -/
theorem decode_cut_or_extended (bytes : Bytes) (policy : ValidationPolicy) :
    (∀ record, SealedRecord.decode bytes policy = .ok record → ∀ n < bytes.length,
      SealedRecord.decode (bytes.take n) policy = .error (.error .truncated)) ∧
    ∀ record, SealedRecord.decode bytes policy = .ok record → ∀ extra ≠ [],
      SealedRecord.decode (bytes ++ extra) policy = .error (.error .trailingBytes) := by
  have streams := Streams.recordFields policy .granting
  refine ⟨fun record accepted n short => ?_, fun record accepted extra more => ?_⟩
  · obtain ⟨parsed, read, -⟩ := bind_eq_ok.mp accepted
    have cut := streams.readAll_cut read (List.take_prefix n bytes) (by rw [List.length_take]; omega)
    rw [SealedRecord.decode, cut]
    rfl
  · obtain ⟨parsed, read, -⟩ := bind_eq_ok.mp accepted
    rw [SealedRecord.decode, streams.readAll_extend read more]
    rfl

end Blindplane.Wire
