import Mathlib.Order.Basic
import Mathlib.Data.Set.Insert

/-! # Registers that keep the greatest

A family of registers, each keeping the value of greatest rank it was offered. A refused
offer changes nothing, so where no two values of one register tie, what the registers end
up with does not depend on the order of the offers.
-/

namespace Blindplane.Lib.Register

variable {κ α R : Type*} [LinearOrder R] (key : α → κ) (rank : α → R)

/-- The register is vacant, or holds something of lower rank. -/
def Admits (registers : κ → Option α) (value : α) : Prop :=
  ∀ held, registers (key value) = some held → rank held < rank value

open Classical in
/-- Offer a value to its register. -/
noncomputable def offer [DecidableEq κ] (registers : κ → Option α) (value : α) : κ → Option α :=
  if Admits key rank registers value then Function.update registers (key value) (some value)
  else registers

/-- Each register holds a greatest value among the seen ones that belong to it. -/
structure Greatest (seen : Set α) (registers : κ → Option α) : Prop where
  mem : ∀ {k a}, registers k = some a → a ∈ seen ∧ key a = k
  top : ∀ {k a b}, registers k = some a → b ∈ seen → key b = k → rank b ≤ rank a
  vacant : ∀ {k b}, registers k = none → b ∈ seen → key b ≠ k

/-- No two values of one register have one rank. -/
def Tieless (seen : Set α) : Prop :=
  ∀ a ∈ seen, ∀ b ∈ seen, key a = key b → rank a = rank b → a = b

variable {key rank}

theorem greatest_empty : Greatest key rank (∅ : Set α) (fun _ => none) where
  mem found := nomatch found
  top found := nomatch found
  vacant _ member := member.elim

theorem Greatest.offer [DecidableEq κ] {seen : Set α} {registers : κ → Option α}
    (greatest : Greatest key rank seen registers) (value : α) :
    Greatest key rank (insert value seen) (offer key rank registers value) := by
  classical
  by_cases admits : Admits key rank registers value
  · rw [Register.offer, if_pos admits]
    refine ⟨fun {k a} found => ?_, fun {k a b} found member belongs => ?_,
      fun {k b} found member => ?_⟩
    · by_cases here : k = key value
      · subst here
        obtain rfl : value = a := by simpa using found
        exact ⟨.inl rfl, rfl⟩
      · rw [Function.update_of_ne here] at found
        exact (greatest.mem found).imp_left .inr
    · by_cases here : k = key value
      · subst here
        obtain rfl : value = a := by simpa using found
        rcases member with rfl | earlier
        · exact le_rfl
        · cases held : registers (key value) with
          | none => exact absurd belongs (greatest.vacant held earlier)
          | some old => exact (greatest.top held earlier belongs).trans (admits old held).le
      · rw [Function.update_of_ne here] at found
        rcases member with rfl | earlier
        · exact absurd belongs.symm here
        · exact greatest.top found earlier belongs
    · by_cases here : k = key value
      · subst here
        simp at found
      · rw [Function.update_of_ne here] at found
        rcases member with rfl | earlier
        · exact Ne.symm here
        · exact greatest.vacant found earlier
  · rw [Register.offer, if_neg admits]
    simp only [Admits, not_forall, not_lt] at admits
    obtain ⟨held, found, lower⟩ := admits
    refine ⟨fun found => (greatest.mem found).imp_left .inr, fun {k a b} found' member belongs => ?_,
      fun {k b} vacant member => ?_⟩
    · rcases member with rfl | earlier
      · obtain rfl := Option.some.inj (found.symm.trans (belongs ▸ found'))
        exact lower
      · exact greatest.top found' earlier belongs
    · rcases member with rfl | earlier
      · rintro rfl
        rw [found] at vacant
        cases vacant
      · exact greatest.vacant vacant earlier

/-- What was seen before is not admitted again. -/
theorem Greatest.offer_seen [DecidableEq κ] {seen : Set α} {registers : κ → Option α}
    (greatest : Greatest key rank seen registers) {value : α} (member : value ∈ seen) :
    Register.offer key rank registers value = registers := by
  refine if_neg fun admits => ?_
  cases held : registers (key value) with
  | none => exact greatest.vacant held member rfl
  | some a => exact (admits a held).not_ge (greatest.top held member rfl)

/-- After any offers, in any order, each register holds a greatest value of its own. -/
theorem Greatest.offers [DecidableEq κ] {seen : Set α} {registers : κ → Option α}
    (greatest : Greatest key rank seen registers) (values : List α) :
    Greatest key rank (seen ∪ {value | value ∈ values})
      (values.foldl (Register.offer key rank) registers) := by
  induction values generalizing seen registers with
  | nil => simpa using greatest
  | cons value rest ih =>
      have later := ih (greatest.offer value)
      have same : insert value seen ∪ {other | other ∈ rest} =
          seen ∪ {other | other ∈ value :: rest} := by
        ext other
        simp only [Set.mem_union, Set.mem_insert_iff, Set.mem_ofPred_eq, List.mem_cons]
        exact or_assoc.trans or_left_comm
      rwa [same] at later

/-- Without ties there is one way to hold the greatest. -/
theorem Greatest.eq_some_iff {seen : Set α} {registers : κ → Option α}
    (greatest : Greatest key rank seen registers) (tieless : Tieless key rank seen) {k : κ} {a : α} :
    registers k = some a ↔
      a ∈ seen ∧ key a = k ∧ ∀ b ∈ seen, key b = k → rank b ≤ rank a := by
  constructor
  · intro found
    obtain ⟨member, belongs⟩ := greatest.mem found
    exact ⟨member, belongs, fun b other same => greatest.top found other same⟩
  · rintro ⟨member, belongs, top⟩
    cases held : registers k with
    | none => exact absurd belongs (greatest.vacant held member)
    | some b =>
        obtain ⟨other, same⟩ := greatest.mem held
        have tie : rank b = rank a := le_antisymm (top b other same) (greatest.top held member belongs)
        rw [tieless b other a member (same.trans belongs.symm) tie]

end Blindplane.Lib.Register
