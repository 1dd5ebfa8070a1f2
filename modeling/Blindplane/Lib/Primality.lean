import Mathlib.Data.List.Prime
import Mathlib.NumberTheory.LucasPrimality

/-! # Certified primes

Lucas's test proves a number prime from the primes that divide its predecessor. A
certificate lists such tests, smallest numbers first, so that each test may rely on the
ones before it; checking it is arithmetic that the kernel can do.
-/

namespace Blindplane.Lib.Primality

/-- `base ^ exponent` modulo `modulus`, for exponents of at most `bits` bits. -/
def powMod (modulus : Nat) : (bits : Nat) → (base exponent : Nat) → Nat
  | 0, _, _ => 1 % modulus
  | bits + 1, base, exponent =>
      let rest := powMod modulus bits (base * base % modulus) (exponent / 2)
      if exponent % 2 = 0 then rest else base * rest % modulus

theorem powMod_eq (modulus : Nat) {bits base exponent : Nat} (fits : exponent < 2 ^ bits) :
    powMod modulus bits base exponent = base ^ exponent % modulus := by
  induction bits generalizing base exponent with
  | zero =>
      obtain rfl : exponent = 0 := by simpa using fits
      rfl
  | succ bits ih =>
      have half : exponent / 2 < 2 ^ bits := by
        rw [pow_succ] at fits
        omega
      have squared : (base * base % modulus) ^ (exponent / 2) % modulus =
          base ^ (2 * (exponent / 2)) % modulus := by
        rw [← Nat.pow_mod, pow_mul, sq]
      simp only [powMod, ih half, squared]
      split
      · next even => rw [Nat.mul_div_cancel' (Nat.dvd_of_mod_eq_zero even)]
      · next odd =>
        have split : exponent = 2 * (exponent / 2) + 1 := by omega
        rw [Nat.mul_mod_mod, ← Nat.pow_succ', Nat.succ_eq_add_one, ← split]

/-- Lucas's test for one number: a witness, and the primes whose product is the number
    before it. -/
structure Test where
  number : Nat
  witness : Nat
  factors : List Nat

/-- The test succeeds, its factors being among the known primes. -/
def Test.passes (known : List Nat) (test : Test) : Bool :=
  let power := powMod test.number (test.number.log2 + 1) test.witness
  test.factors.all (known.contains ·) && 1 < test.number &&
    test.factors.prod == test.number - 1 && power (test.number - 1) == 1 &&
    test.factors.all fun factor => power ((test.number - 1) / factor) != 1

theorem Test.prime {known : List Nat} {test : Test} (primes : ∀ q ∈ known, q.Prime)
    (passed : test.passes known) : test.number.Prime := by
  simp only [passes, Bool.and_eq_true, List.all_eq_true, List.contains_iff_mem, decide_eq_true_eq,
    beq_iff_eq, bne_iff_ne, ne_eq] at passed
  obtain ⟨⟨⟨⟨listed, above⟩, product⟩, order⟩, proper⟩ := passed
  have power : ∀ n ≤ test.number - 1, powMod test.number (test.number.log2 + 1) test.witness n =
      test.witness ^ n % test.number := fun n le =>
    powMod_eq _ (by have := @Nat.lt_log2_self test.number; omega)
  have unit : ∀ n ≤ test.number - 1, (test.witness : ZMod test.number) ^ n = 1 ↔
      powMod test.number (test.number.log2 + 1) test.witness n = 1 := by
    intro n le
    rw [power n le, ← Nat.cast_pow, ← Nat.cast_one, ZMod.natCast_eq_natCast_iff',
      Nat.mod_eq_of_lt above]
  refine lucas_primality test.number test.witness ((unit _ (Nat.le_refl _)).mpr order) ?_
  intro q prime divides
  rw [← product, Prime.dvd_prod_iff prime.prime] at divides
  obtain ⟨factor, member, divides⟩ := divides
  obtain rfl := (Nat.prime_dvd_prime_iff_eq prime (primes factor (listed factor member))).mp divides
  rw [ne_eq, unit _ (Nat.div_le_self _ _)]
  exact proper q member

/-- Every test passes, given the primes before it. -/
def passAll : (known : List Nat) → List Test → Bool
  | _, [] => true
  | known, test :: rest => test.passes known && passAll (test.number :: known) rest

theorem prime_of_passAll {known : List Nat} {tests : List Test} (primes : ∀ q ∈ known, q.Prime)
    (passes : passAll known tests) : ∀ test ∈ tests, test.number.Prime := by
  induction tests generalizing known with
  | nil => exact fun _ member => absurd member List.not_mem_nil
  | cons test rest ih =>
      rw [passAll, Bool.and_eq_true] at passes
      have prime := Test.prime primes passes.1
      exact List.forall_mem_cons.mpr
        ⟨prime, ih (List.forall_mem_cons.mpr ⟨prime, primes⟩) passes.2⟩

end Blindplane.Lib.Primality
