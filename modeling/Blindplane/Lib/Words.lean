import Mathlib.Algebra.BigOperators.Group.List.Basic
import Mathlib.Algebra.Ring.Nat
import Mathlib.Data.Nat.Bits

/-! # Arithmetic on machine words

Sums and products of machine words are written once, over a monad that settles what
becomes of a result too large for its width: release builds keep its low bits, checked
arithmetic gives up. Where every result fits the two agree with plain arithmetic, and
with each other; that is how a computation is shown never to overflow.
-/

namespace Blindplane.Lib

/-- What becomes of the results of word arithmetic. -/
class Arithmetic (m : Type → Type) where
  /-- A sum or product, kept to `width` bits. -/
  fit : (width n : Nat) → m Nat
  /-- A difference of words of `width` bits. -/
  sub : (width a b : Nat) → m Nat

namespace Arithmetic

/-- Keep the low bits. -/
instance : Arithmetic Id where
  fit width n := pure (n % 2 ^ width)
  sub width a b := pure ((a + 2 ^ width - b) % 2 ^ width)

/-- Give up on results that do not fit. -/
instance : Arithmetic Option where
  fit width n := if n < 2 ^ width then some n else none
  sub _ a b := if b ≤ a then some (a - b) else none

/-- Results that fit are exact. -/
class Exact (m : Type → Type) [Monad m] [Arithmetic m] : Prop where
  fit_of_lt : ∀ {width n : Nat}, n < 2 ^ width → (fit width n : m Nat) = pure n
  sub_of_le : ∀ {width a b : Nat}, a < 2 ^ width → b ≤ a → (sub width a b : m Nat) = pure (a - b)

instance : Exact Id where
  fit_of_lt fits := congrArg pure (Nat.mod_eq_of_lt fits)
  sub_of_le {width a b} fits le := by
    have shifted : a + 2 ^ width - b = a - b + 2 ^ width := by omega
    show pure ((a + 2 ^ width - b) % 2 ^ width) = pure (a - b)
    rw [shifted, Nat.add_mod_right, Nat.mod_eq_of_lt (by omega)]

instance : Exact Option where
  fit_of_lt fits := if_pos fits
  sub_of_le _ le := if_pos le

variable {m : Type → Type} [Monad m] [Arithmetic m]

def add (width a b : Nat) : m Nat := fit width (a + b)

def mul (width a b : Nat) : m Nat := fit width (a * b)

/-- Products added up from left to right. -/
def sumProducts (width : Nat) (pairs : List (Nat × Nat)) : m Nat :=
  pairs.foldlM (fun acc pair => do
    let product ← mul width pair.1 pair.2
    add width acc product) 0

/-- The exact sum of products. -/
def dot (pairs : List (Nat × Nat)) : Nat := (pairs.map fun pair => pair.1 * pair.2).sum

@[simp] theorem dot_nil : dot [] = 0 := rfl

@[simp] theorem dot_cons (pair : Nat × Nat) (rest : List (Nat × Nat)) :
    dot (pair :: rest) = pair.1 * pair.2 + dot rest := rfl

theorem dot_nil_le (bound : Nat) : dot [] ≤ 0 * bound := Nat.zero_le _

/-- Products below a bound add up to at most so many times the bound. -/
theorem dot_cons_le {x y bound count : Nat} {rest : List (Nat × Nat)} (first : x * y < bound)
    (later : dot rest ≤ count * bound) : dot ((x, y) :: rest) ≤ (count + 1) * bound := by
  rw [dot_cons, Nat.succ_mul, Nat.add_comm]
  exact Nat.add_le_add later (Nat.le_of_lt first)

variable [Exact m]

theorem add_eq {width a b : Nat} (fits : a + b < 2 ^ width) : (add width a b : m Nat) = pure (a + b) :=
  Exact.fit_of_lt fits

theorem mul_eq {width a b : Nat} (fits : a * b < 2 ^ width) : (mul width a b : m Nat) = pure (a * b) :=
  Exact.fit_of_lt fits

theorem sub_eq {width a b : Nat} (fits : a < 2 ^ width) (le : b ≤ a) :
    (sub width a b : m Nat) = pure (a - b) :=
  Exact.sub_of_le fits le

variable [LawfulMonad m]

private theorem foldlM_eq {width : Nat} {pairs : List (Nat × Nat)} {acc : Nat}
    (fits : acc + dot pairs < 2 ^ width) :
    pairs.foldlM (fun acc pair => do
      let product ← (mul width pair.1 pair.2 : m Nat)
      add width acc product) acc =
      pure (acc + dot pairs) := by
  induction pairs generalizing acc with
  | nil => rfl
  | cons pair rest ih =>
      rw [dot_cons] at fits ⊢
      rw [List.foldlM_cons, mul_eq (by omega), pure_bind, add_eq (by omega), pure_bind,
        ih (by omega), Nat.add_assoc]

theorem sumProducts_eq {width : Nat} {pairs : List (Nat × Nat)} (fits : dot pairs < 2 ^ width) :
    (sumProducts width pairs : m Nat) = pure (dot pairs) := by
  rw [sumProducts, foldlM_eq (by rwa [Nat.zero_add]), Nat.zero_add]

end Arithmetic

/-- The low bits under a mask of ones. -/
theorem and_mask (n width : Nat) : n &&& (2 ^ width - 1) = n % 2 ^ width :=
  Nat.and_two_pow_sub_one_eq_mod n width

/-- Bits moved above the ones already there are added to them; those that leave the word
    are lost. -/
theorem or_shiftLeft_mod {low n kept shift width : Nat} (below : low < 2 ^ shift)
    (whole : kept + shift = width) :
    low ||| (n <<< shift) % 2 ^ width = low + n % 2 ^ kept * 2 ^ shift := by
  have moved : (n <<< shift) % 2 ^ width = (n % 2 ^ kept) <<< shift := by
    rw [Nat.shiftLeft_eq, Nat.shiftLeft_eq, ← whole, Nat.pow_add, Nat.mul_mod_mul_right]
  rw [moved, Nat.or_comm, ← Nat.shiftLeft_add_eq_or_of_lt below, Nat.shiftLeft_eq, Nat.add_comm]

end Blindplane.Lib
