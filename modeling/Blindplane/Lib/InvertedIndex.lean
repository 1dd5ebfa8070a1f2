import Mathlib.Data.List.Sort

/-! # Inverted indexes

A multimap from tokens to sets of keys that drops a token with its last key. Such an
index is nothing but the relation it holds: two of them without empty sets that hold the
same pairs are equal.
-/

namespace Blindplane.Lib

open Std

/-- From each token to the keys filed under it. -/
abbrev InvertedIndex (τ κ : Type) (cmpT : τ → τ → Ordering) (cmpK : κ → κ → Ordering) :=
  ExtTreeMap τ (ExtTreeSet κ cmpK) cmpT

namespace InvertedIndex

variable {τ κ : Type} {cmpT : τ → τ → Ordering} {cmpK : κ → κ → Ordering} [TransCmp cmpT]
  [TransCmp cmpK]

/-- Unfile a key from a token, and the token with its last key. -/
def drop (index : InvertedIndex τ κ cmpT cmpK) (token : τ) (key : κ) :
    InvertedIndex τ κ cmpT cmpK :=
  match index[token]? with
  | none => index
  | some keys =>
      if (keys.erase key).isEmpty then index.erase token else index.insert token (keys.erase key)

/-- File a key under a token. -/
def add (index : InvertedIndex τ κ cmpT cmpK) (token : τ) (key : κ) :
    InvertedIndex τ κ cmpT cmpK :=
  index.insert token ((index[token]?.getD ∅).insert key)

/-- The keys filed under a token. -/
def keysOf (index : InvertedIndex τ κ cmpT cmpK) (token : τ) : ExtTreeSet κ cmpK :=
  index[token]?.getD ∅

def Holds (index : InvertedIndex τ κ cmpT cmpK) (token : τ) (key : κ) : Prop :=
  key ∈ keysOf index token

/-- No token is kept for nothing. -/
def NoEmpty (index : InvertedIndex τ κ cmpT cmpK) : Prop :=
  ∀ (token : τ) (keys : ExtTreeSet κ cmpK), index[token]? = some keys → keys.isEmpty = false

@[simp] theorem not_holds_empty {token : τ} {key : κ} :
    ¬ Holds (∅ : InvertedIndex τ κ cmpT cmpK) token key := by
  simp only [Holds, keysOf, ExtTreeMap.getElem?_empty, Option.getD_none, ExtTreeSet.not_mem_empty,
    not_false_eq_true]

omit [TransCmp cmpK] in
theorem noEmpty_empty : NoEmpty (∅ : InvertedIndex τ κ cmpT cmpK) := by
  intro token keys found
  simp at found

variable [LawfulEqCmp cmpT]

theorem getElem?_insert_eq {ν : Type} (index : ExtTreeMap τ ν cmpT) (token other : τ) (value : ν)
    [Decidable (token = other)] :
    (index.insert token value)[other]? = if token = other then some value else index[other]? := by
  simp only [ExtTreeMap.getElem?_insert, LawfulEqCmp.compare_eq_iff_eq]

theorem getElem?_erase_eq {ν : Type} (index : ExtTreeMap τ ν cmpT) (token other : τ)
    [Decidable (token = other)] :
    (index.erase token)[other]? = if token = other then none else index[other]? := by
  simp only [ExtTreeMap.getElem?_erase, LawfulEqCmp.compare_eq_iff_eq]

theorem keysOf_drop [DecidableEq τ] (index : InvertedIndex τ κ cmpT cmpK) (token other : τ)
    (key : κ) :
    keysOf (drop index token key) other =
      if token = other then (keysOf index token).erase key else keysOf index other := by
  cases found : index[token]? with
  | none =>
      have nothing : keysOf index token = ∅ := by rw [keysOf, found, Option.getD_none]
      simp only [drop, found, nothing]
      split
      · next same => rw [← same, nothing, ExtTreeSet.erase_empty]
      · rfl
  | some keys =>
      have filed : keysOf index token = keys := by rw [keysOf, found, Option.getD_some]
      simp only [drop, found, filed]
      split
      · next empty =>
        simp only [keysOf, getElem?_erase_eq]
        split
        · rw [Option.getD_none, ExtTreeSet.isEmpty_iff.mp empty]
        · rfl
      · simp only [keysOf, getElem?_insert_eq]
        split <;> rfl

theorem keysOf_add [DecidableEq τ] (index : InvertedIndex τ κ cmpT cmpK) (token other : τ)
    (key : κ) :
    keysOf (add index token key) other =
      if token = other then (keysOf index token).insert key else keysOf index other := by
  simp only [keysOf, add, getElem?_insert_eq]
  split <;> rfl

variable [LawfulEqCmp cmpK]

@[simp] theorem holds_drop {index : InvertedIndex τ κ cmpT cmpK} {token other : τ} {key filed : κ} :
    Holds (drop index token key) other filed ↔
      Holds index other filed ∧ ¬ (other = token ∧ filed = key) := by
  classical
  simp only [Holds, keysOf_drop]
  split
  · next same =>
    subst same
    simp only [ExtTreeSet.mem_erase, ne_eq, LawfulEqCmp.compare_eq_iff_eq, true_and]
    rw [and_comm, eq_comm]
  · next apart =>
    exact ⟨fun holds => ⟨holds, fun both => apart both.1.symm⟩, fun both => both.1⟩

@[simp] theorem holds_add {index : InvertedIndex τ κ cmpT cmpK} {token other : τ} {key filed : κ} :
    Holds (add index token key) other filed ↔
      Holds index other filed ∨ (other = token ∧ filed = key) := by
  classical
  simp only [Holds, keysOf_add]
  split
  · next same =>
    subst same
    simp only [ExtTreeSet.mem_insert, LawfulEqCmp.compare_eq_iff_eq, true_and]
    rw [or_comm, eq_comm]
  · next apart =>
    exact ⟨.inl, fun either => either.resolve_right fun both => apart both.1.symm⟩

omit [LawfulEqCmp cmpK] in
theorem NoEmpty.drop {index : InvertedIndex τ κ cmpT cmpK} (tidy : NoEmpty index) (token : τ)
    (key : κ) : NoEmpty (drop index token key) := by
  classical
  intro other keys found
  unfold InvertedIndex.drop at found
  split at found
  · exact tidy other keys found
  · split at found
    · rw [getElem?_erase_eq] at found
      split at found
      · cases found
      · exact tidy other keys found
    · next kept =>
      rw [getElem?_insert_eq] at found
      split at found
      · obtain rfl := Option.some.inj found
        exact Bool.eq_false_iff.mpr kept
      · exact tidy other keys found

omit [LawfulEqCmp cmpK] in
theorem NoEmpty.add {index : InvertedIndex τ κ cmpT cmpK} (tidy : NoEmpty index) (token : τ)
    (key : κ) : NoEmpty (add index token key) := by
  classical
  intro other keys found
  rw [InvertedIndex.add, getElem?_insert_eq] at found
  split at found
  · obtain rfl := Option.some.inj found
    rw [ExtTreeSet.isEmpty_eq_false_iff]
    intro empty
    exact ExtTreeSet.not_mem_empty (empty ▸ ExtTreeSet.mem_insert_self)
  · exact tidy other keys found

/-- An index is determined by what it holds. -/
theorem ext {a b : InvertedIndex τ κ cmpT cmpK} (tidyA : NoEmpty a) (tidyB : NoEmpty b)
    (same : ∀ token key, Holds a token key ↔ Holds b token key) : a = b := by
  have filed : ∀ {index : InvertedIndex τ κ cmpT cmpK}, NoEmpty index → ∀ token,
      index[token]? = if (keysOf index token).isEmpty then none else some (keysOf index token) := by
    intro index tidy token
    cases found : index[token]? with
    | none => simp [keysOf, found]
    | some keys => simp [keysOf, found, tidy token keys found]
  refine ExtTreeMap.ext_getElem? fun token => ?_
  have keys : keysOf a token = keysOf b token := ExtTreeSet.ext_mem (same token)
  rw [filed tidyA, filed tidyB, keys]

section Many

variable {α : Type} (token : α → τ) (key : κ)

/-- Unfile a key from the tokens of a list of items, one by one. -/
def dropAll (index : InvertedIndex τ κ cmpT cmpK) (items : List α) : InvertedIndex τ κ cmpT cmpK :=
  items.foldl (fun index item => drop index (token item) key) index

/-- File a key under the tokens of a list of items, one by one. -/
def addAll (index : InvertedIndex τ κ cmpT cmpK) (items : List α) : InvertedIndex τ κ cmpT cmpK :=
  items.foldl (fun index item => add index (token item) key) index

variable {token key}

@[simp] theorem holds_dropAll {index : InvertedIndex τ κ cmpT cmpK} {items : List α} {other : τ}
    {filed : κ} : Holds (dropAll token key index items) other filed ↔
      Holds index other filed ∧ ¬ (filed = key ∧ ∃ item ∈ items, token item = other) := by
  induction items generalizing index with
  | nil => simp [dropAll]
  | cons item rest ih =>
      rw [dropAll, List.foldl_cons, ← dropAll, ih, holds_drop, List.exists_mem_cons_iff]
      constructor
      · rintro ⟨⟨holds, first⟩, later⟩
        refine ⟨holds, ?_⟩
        rintro ⟨same, here | there⟩
        · exact first ⟨here.symm, same⟩
        · exact later ⟨same, there⟩
      · rintro ⟨holds, none⟩
        exact ⟨⟨holds, fun first => none ⟨first.2, .inl first.1.symm⟩⟩,
          fun later => none ⟨later.1, .inr later.2⟩⟩

@[simp] theorem holds_addAll {index : InvertedIndex τ κ cmpT cmpK} {items : List α} {other : τ}
    {filed : κ} : Holds (addAll token key index items) other filed ↔
      Holds index other filed ∨ (filed = key ∧ ∃ item ∈ items, token item = other) := by
  induction items generalizing index with
  | nil => simp [addAll]
  | cons item rest ih =>
      rw [addAll, List.foldl_cons, ← addAll, ih, holds_add, List.exists_mem_cons_iff]
      constructor
      · rintro ((holds | ⟨here, same⟩) | ⟨same, there⟩)
        · exact .inl holds
        · exact .inr ⟨same, .inl here.symm⟩
        · exact .inr ⟨same, .inr there⟩
      · rintro (holds | ⟨same, here | there⟩)
        · exact .inl (.inl holds)
        · exact .inl (.inr ⟨here.symm, same⟩)
        · exact .inr ⟨same, there⟩

omit [LawfulEqCmp cmpK] in
theorem NoEmpty.dropAll {index : InvertedIndex τ κ cmpT cmpK} (tidy : NoEmpty index)
    (items : List α) : NoEmpty (dropAll token key index items) := by
  induction items generalizing index with
  | nil => exact tidy
  | cons item rest ih => exact ih (tidy.drop _ _)

omit [LawfulEqCmp cmpK] in
theorem NoEmpty.addAll {index : InvertedIndex τ κ cmpT cmpK} (tidy : NoEmpty index)
    (items : List α) : NoEmpty (addAll token key index items) := by
  induction items generalizing index with
  | nil => exact tidy
  | cons item rest ih => exact ih (tidy.add _ _)

end Many

end InvertedIndex

end Blindplane.Lib
