import Blindplane.Crypto.Curve25519
import Blindplane.Lib.Words

/-! # Field arithmetic on five 51-bit limbs

The routines of the field, over any word arithmetic. Each has one specification: on
weakly reduced limbs every word arithmetic computes the same limbs, those are weakly
reduced again, and they stand for the right residue. So nothing overflows.
-/

namespace Blindplane.Crypto

open Lib Arithmetic Curve25519

def MASK51 : Nat := 2 ^ 51 - 1

/-- Five machine words standing for `f0 + f1*2^51 + f2*2^102 + f3*2^153 + f4*2^204`. -/
structure Limbs where
  f0 : Nat
  f1 : Nat
  f2 : Nat
  f3 : Nat
  f4 : Nat
  deriving DecidableEq, Repr

namespace Limbs

def value (l : Limbs) : Nat :=
  l.f0 + l.f1 * 2 ^ 51 + l.f2 * 2 ^ 102 + l.f3 * 2 ^ 153 + l.f4 * 2 ^ 204

/-- Every limb is below `bound`. -/
structure Below (bound : Nat) (l : Limbs) : Prop where
  f0 : l.f0 < bound
  f1 : l.f1 < bound
  f2 : l.f2 < bound
  f3 : l.f3 < bound
  f4 : l.f4 < bound

instance (bound : Nat) (l : Limbs) : Decidable (l.Below bound) :=
  decidable_of_iff (l.f0 < bound ∧ l.f1 < bound ∧ l.f2 < bound ∧ l.f3 < bound ∧ l.f4 < bound)
    ⟨fun ⟨f0, f1, f2, f3, f4⟩ => ⟨f0, f1, f2, f3, f4⟩, fun h => ⟨h.f0, h.f1, h.f2, h.f3, h.f4⟩⟩

/-- What carrying leaves behind: limbs hardly above `2^51`. Being below `2^52` would not
    do for the subtrahend of a difference, for `2*p` has smaller limbs. -/
abbrev WeaklyReduced (l : Limbs) : Prop := l.Below (2 ^ 51 + 2 ^ 13)

section Routines

variable {m : Type → Type} [Monad m] [Arithmetic m]

/-- Propagate carries without a full reduction. -/
def weakReduce (l : Limbs) : m Limbs := do
  let carry := l.f4 >>> 51
  let f4 := l.f4 &&& MASK51
  let f0 ← add 64 l.f0 (← mul 64 carry 19)
  let f1 ← add 64 l.f1 (f0 >>> 51)
  let f2 ← add 64 l.f2 (f1 >>> 51)
  let f3 ← add 64 l.f3 (f2 >>> 51)
  let f4 ← add 64 f4 (f3 >>> 51)
  return { f0 := f0 &&& MASK51, f1 := f1 &&& MASK51, f2 := f2 &&& MASK51, f3 := f3 &&& MASK51, f4 }

/-- Reduce five wide accumulators into 51-bit limbs. -/
def carry (r : Limbs) : m Limbs := do
  let carry := (r.f0 >>> 51) % 2 ^ 64
  let r1 ← add 128 r.f1 carry
  let carry := (r1 >>> 51) % 2 ^ 64
  let r2 ← add 128 r.f2 carry
  let carry := (r2 >>> 51) % 2 ^ 64
  let r3 ← add 128 r.f3 carry
  let carry := (r3 >>> 51) % 2 ^ 64
  let r4 ← add 128 r.f4 carry
  let carry := (r4 >>> 51) % 2 ^ 64
  -- the overflow out of the top limb re-enters at the bottom times 19
  let f0 ← add 64 (r.f0 % 2 ^ 64 &&& MASK51) (← mul 64 carry 19)
  let f1 ← add 64 (r1 % 2 ^ 64 &&& MASK51) (f0 >>> 51)
  return { f0 := f0 &&& MASK51, f1, f2 := r2 % 2 ^ 64 &&& MASK51, f3 := r3 % 2 ^ 64 &&& MASK51,
           f4 := r4 % 2 ^ 64 &&& MASK51 }

/-- Sum of two field elements. -/
def addLimbs (a b : Limbs) : m Limbs := do
  weakReduce { f0 := ← add 64 a.f0 b.f0, f1 := ← add 64 a.f1 b.f1, f2 := ← add 64 a.f2 b.f2
               f3 := ← add 64 a.f3 b.f3, f4 := ← add 64 a.f4 b.f4 }

/-- `2*p` written in 51-bit limbs. -/
def P2 : Limbs where
  f0 := 0x000fffffffffffda
  f1 := 0x000ffffffffffffe
  f2 := 0x000ffffffffffffe
  f3 := 0x000ffffffffffffe
  f4 := 0x000ffffffffffffe

/-- Difference of two field elements: `2*p` is added limb-wise first. -/
def subLimbs (a b : Limbs) : m Limbs := do
  weakReduce { f0 := ← sub 64 (← add 64 a.f0 P2.f0) b.f0, f1 := ← sub 64 (← add 64 a.f1 P2.f1) b.f1
               f2 := ← sub 64 (← add 64 a.f2 P2.f2) b.f2, f3 := ← sub 64 (← add 64 a.f3 P2.f3) b.f3
               f4 := ← sub 64 (← add 64 a.f4 P2.f4) b.f4 }

/-- Product of two field elements. -/
def mulLimbs (a b : Limbs) : m Limbs := do
  -- limbs above the top one fold back in multiplied by 19
  let b1_19 ← mul 128 b.f1 19
  let b2_19 ← mul 128 b.f2 19
  let b3_19 ← mul 128 b.f3 19
  let b4_19 ← mul 128 b.f4 19
  carry
    { f0 := ← sumProducts 128
        [(a.f0, b.f0), (a.f1, b4_19), (a.f2, b3_19), (a.f3, b2_19), (a.f4, b1_19)]
      f1 := ← sumProducts 128
        [(a.f0, b.f1), (a.f1, b.f0), (a.f2, b4_19), (a.f3, b3_19), (a.f4, b2_19)]
      f2 := ← sumProducts 128
        [(a.f0, b.f2), (a.f1, b.f1), (a.f2, b.f0), (a.f3, b4_19), (a.f4, b3_19)]
      f3 := ← sumProducts 128
        [(a.f0, b.f3), (a.f1, b.f2), (a.f2, b.f1), (a.f3, b.f0), (a.f4, b4_19)]
      f4 := ← sumProducts 128
        [(a.f0, b.f4), (a.f1, b.f3), (a.f2, b.f2), (a.f3, b.f1), (a.f4, b.f0)] }

/-- Square of a field element; the cross terms are shared. -/
def squareLimbs (a : Limbs) : m Limbs := do
  let a0_2 ← mul 64 2 a.f0
  let a1_2 ← mul 64 2 a.f1
  let a3_19 ← mul 64 19 a.f3
  let a4_19 ← mul 64 19 a.f4
  carry
    { f0 := ← sumProducts 128 [(a.f0, a.f0), (a1_2, a4_19), (← mul 128 2 a.f2, a3_19)]
      f1 := ← sumProducts 128 [(a0_2, a.f1), (← mul 128 2 a.f2, a4_19), (a.f3, a3_19)]
      f2 := ← sumProducts 128 [(a0_2, a.f2), (a.f1, a.f1), (← mul 128 2 a.f3, a4_19)]
      f3 := ← sumProducts 128 [(a0_2, a.f3), (a1_2, a.f2), (a.f4, a4_19)]
      f4 := ← sumProducts 128 [(a0_2, a.f4), (a1_2, a.f3), (a.f2, a.f2)] }

/-- Multiplication by the Montgomery-ladder constant `a24 = 121666`. -/
def mul121666Limbs (a : Limbs) : m Limbs := do
  carry { f0 := ← mul 128 a.f0 121666, f1 := ← mul 128 a.f1 121666, f2 := ← mul 128 a.f2 121666
          f3 := ← mul 128 a.f3 121666, f4 := ← mul 128 a.f4 121666 }

end Routines

/-- Every word arithmetic computes the same weakly reduced limbs, which stand for
    `residue`. -/
def Computes (routine : ∀ (m : Type → Type) [Monad m] [Arithmetic m], m Limbs) (residue : F) : Prop :=
  ∃ r : Limbs, r.WeaklyReduced ∧ (r.value : F) = residue ∧
    ∀ (m : Type → Type) [Monad m] [LawfulMonad m] [Arithmetic m] [Exact m], routine m = pure r

/-- `2^255 = 19` in the field. -/
theorem fold_top (n : Nat) : ((n * 2 ^ 255 : Nat) : F) = ((n * 19 : Nat) : F) := by
  rw [two_pow_eq_P_add, Nat.mul_add, Nat.cast_add, Nat.cast_mul n P, ZMod.natCast_self, mul_zero, zero_add]

/-- Moving multiples of `2^255` to the bottom, times 19, keeps the residue. -/
theorem residue_eq {a b : Nat} (c : Nat) (moved : a + c * 2 ^ 255 = b + c * 19) : (a : F) = b := by
  have cast := congrArg (Nat.cast : Nat → F) moved
  rw [Nat.cast_add, Nat.cast_add, fold_top] at cast
  exact add_right_cancel cast

theorem weakReduce_computes {l : Limbs} (below : l.Below (2 ^ 63)) :
    Computes (fun _ => weakReduce l) l.value := by
  obtain ⟨h0, h1, h2, h3, h4⟩ := below
  obtain ⟨t0, e0⟩ : ∃ t0, t0 = l.f0 + l.f4 / 2 ^ 51 * 19 := ⟨_, rfl⟩
  obtain ⟨t1, e1⟩ : ∃ t1, t1 = l.f1 + t0 / 2 ^ 51 := ⟨_, rfl⟩
  obtain ⟨t2, e2⟩ : ∃ t2, t2 = l.f2 + t1 / 2 ^ 51 := ⟨_, rfl⟩
  obtain ⟨t3, e3⟩ : ∃ t3, t3 = l.f3 + t2 / 2 ^ 51 := ⟨_, rfl⟩
  obtain ⟨t4, e4⟩ : ∃ t4, t4 = l.f4 % 2 ^ 51 + t3 / 2 ^ 51 := ⟨_, rfl⟩
  refine ⟨⟨t0 % 2 ^ 51, t1 % 2 ^ 51, t2 % 2 ^ 51, t3 % 2 ^ 51, t4⟩, ?_, ?_, fun m _ _ _ _ => ?_⟩
  · constructor <;> simp only <;> omega
  · refine residue_eq (l.f4 / 2 ^ 51) ?_
    simp only [value]
    omega
  · simp only [weakReduce, MASK51, and_mask, Nat.shiftRight_eq_div_pow]
    rw [mul_eq (by omega), pure_bind, add_eq (by omega), pure_bind, ← e0, add_eq (by omega), pure_bind,
      ← e1, add_eq (by omega), pure_bind, ← e2, add_eq (by omega), pure_bind, ← e3,
      add_eq (by omega), pure_bind, ← e4]

theorem carry_computes {r : Limbs} (below : r.Below (2 ^ 112)) (top : r.f4 < 2 ^ 110) :
    Computes (fun _ => carry r) r.value := by
  obtain ⟨h0, h1, h2, h3, -⟩ := below
  obtain ⟨t1, e1⟩ : ∃ t1, t1 = r.f1 + r.f0 / 2 ^ 51 := ⟨_, rfl⟩
  obtain ⟨t2, e2⟩ : ∃ t2, t2 = r.f2 + t1 / 2 ^ 51 := ⟨_, rfl⟩
  obtain ⟨t3, e3⟩ : ∃ t3, t3 = r.f3 + t2 / 2 ^ 51 := ⟨_, rfl⟩
  obtain ⟨t4, e4⟩ : ∃ t4, t4 = r.f4 + t3 / 2 ^ 51 := ⟨_, rfl⟩
  obtain ⟨t0, e0⟩ : ∃ t0, t0 = r.f0 % 2 ^ 51 + t4 / 2 ^ 51 * 19 := ⟨_, rfl⟩
  have low : ∀ n, n % 2 ^ 64 % 2 ^ 51 = n % 2 ^ 51 := fun n =>
    Nat.mod_mod_of_dvd n (by decide)
  have whole : ∀ n, n < 2 ^ 113 → n / 2 ^ 51 % 2 ^ 64 = n / 2 ^ 51 := fun n fits =>
    Nat.mod_eq_of_lt (by omega)
  refine ⟨⟨t0 % 2 ^ 51, t1 % 2 ^ 51 + t0 / 2 ^ 51, t2 % 2 ^ 51, t3 % 2 ^ 51, t4 % 2 ^ 51⟩, ?_, ?_,
    fun m _ _ _ _ => ?_⟩
  · constructor <;> simp only <;> omega
  · refine residue_eq (t4 / 2 ^ 51) ?_
    simp only [value]
    omega
  · simp only [carry, MASK51, and_mask, Nat.shiftRight_eq_div_pow, low]
    rw [whole _ (by omega), add_eq (by omega), pure_bind, ← e1, whole _ (by omega), add_eq (by omega),
      pure_bind, ← e2, whole _ (by omega), add_eq (by omega), pure_bind, ← e3, whole _ (by omega),
      add_eq (by omega), pure_bind, ← e4, whole _ (by omega), mul_eq (by omega), pure_bind,
      add_eq (by omega), pure_bind, ← e0, add_eq (by omega), pure_bind]

theorem addLimbs_computes {a b : Limbs} (ha : a.WeaklyReduced) (hb : b.WeaklyReduced) :
    Computes (fun _ => addLimbs a b) (a.value + b.value) := by
  obtain ⟨a0, a1, a2, a3, a4⟩ := ha
  obtain ⟨b0, b1, b2, b3, b4⟩ := hb
  obtain ⟨r, reduced, value, runs⟩ := weakReduce_computes
    (show Below (2 ^ 63) ⟨a.f0 + b.f0, a.f1 + b.f1, a.f2 + b.f2, a.f3 + b.f3, a.f4 + b.f4⟩ by
      constructor <;> simp only <;> omega)
  refine ⟨r, reduced, ?_, fun m _ _ _ _ => ?_⟩
  · rw [value, ← Nat.cast_add]
    exact congrArg Nat.cast (by simp only [Limbs.value]; ring)
  · simp only [addLimbs]
    rw [add_eq (by omega), pure_bind, add_eq (by omega), pure_bind, add_eq (by omega), pure_bind,
      add_eq (by omega), pure_bind, add_eq (by omega), pure_bind]
    exact runs m

theorem subLimbs_computes {a b : Limbs} (ha : a.WeaklyReduced) (hb : b.WeaklyReduced) :
    Computes (fun _ => subLimbs a b) (a.value - b.value) := by
  obtain ⟨a0, a1, a2, a3, a4⟩ := ha
  obtain ⟨b0, b1, b2, b3, b4⟩ := hb
  have p0 : P2.f0 = 0x000fffffffffffda := rfl
  have p1 : P2.f1 = 0x000ffffffffffffe := rfl
  have p2 : P2.f2 = 0x000ffffffffffffe := rfl
  have p3 : P2.f3 = 0x000ffffffffffffe := rfl
  have p4 : P2.f4 = 0x000ffffffffffffe := rfl
  obtain ⟨r, reduced, value, runs⟩ := weakReduce_computes
    (show Below (2 ^ 63) ⟨a.f0 + P2.f0 - b.f0, a.f1 + P2.f1 - b.f1, a.f2 + P2.f2 - b.f2,
        a.f3 + P2.f3 - b.f3, a.f4 + P2.f4 - b.f4⟩ by
      constructor <;> simp only <;> omega)
  refine ⟨r, reduced, ?_, fun m _ _ _ _ => ?_⟩
  · have twice : ((2 * P : Nat) : F) = 0 := by
      rw [Nat.cast_mul, ZMod.natCast_self, mul_zero]
    have whole : P2.value = 2 * P := by norm_num [P2, Limbs.value, P]
    have shifted : Limbs.value ⟨a.f0 + P2.f0 - b.f0, a.f1 + P2.f1 - b.f1, a.f2 + P2.f2 - b.f2,
        a.f3 + P2.f3 - b.f3, a.f4 + P2.f4 - b.f4⟩ + b.value = a.value + 2 * P := by
      rw [← whole]
      simp only [Limbs.value]
      omega
    have cast := congrArg (Nat.cast : Nat → F) shifted
    rw [Nat.cast_add, Nat.cast_add, twice, add_zero] at cast
    rw [value]
    exact eq_sub_of_add_eq cast
  · simp only [subLimbs]
    rw [add_eq (by omega), pure_bind, sub_eq (by omega) (by omega), pure_bind,
      add_eq (by omega), pure_bind, sub_eq (by omega) (by omega), pure_bind,
      add_eq (by omega), pure_bind, sub_eq (by omega) (by omega), pure_bind,
      add_eq (by omega), pure_bind, sub_eq (by omega) (by omega), pure_bind,
      add_eq (by omega), pure_bind, sub_eq (by omega) (by omega), pure_bind]
    exact runs m

/-- The bound of the limbs that carrying leaves behind. -/
private abbrev B : Nat := 2 ^ 51 + 2 ^ 13

/-- No product that enters a column comes near the width of an accumulator, whichever of
    its factors were doubled or folded back. -/
private theorem mul_lt {x y : Nat} (hx : x < 2 * B) (hy : y < 19 * B) : x * y < 2 ^ 108 :=
  Nat.lt_of_lt_of_le (Nat.mul_lt_mul'' hx hy) (by decide)

/-- Nothing is folded back into the top column. -/
private theorem top_mul_lt {x y : Nat} (hx : x < 2 * B) (hy : y < B) : x * y < 2 ^ 104 :=
  Nat.lt_of_lt_of_le (Nat.mul_lt_mul'' hx hy) (by decide)

private theorem lt_twice {x : Nat} (hx : x < B) : x < 2 * B := Nat.lt_of_lt_of_le hx (by decide)

private theorem twice_lt {x : Nat} (hx : x < B) : 2 * x < 2 * B :=
  Nat.mul_lt_mul_of_pos_left hx (by decide)

private theorem lt_folded {x : Nat} (hx : x < B) : x < 19 * B := Nat.lt_of_lt_of_le hx (by decide)

private theorem folded_lt {x : Nat} (hx : x < B) : 19 * x < 19 * B :=
  Nat.mul_lt_mul_of_pos_left hx (by decide)

private theorem folded_lt' {x : Nat} (hx : x < B) : x * 19 < 19 * B :=
  Nat.mul_comm x 19 ▸ folded_lt hx

/-- Carrying five columns of products, none of which comes near its width. -/
theorem carryColumns_computes {c0 c1 c2 c3 c4 : List (Nat × Nat)} (h0 : dot c0 < 2 ^ 112)
    (h1 : dot c1 < 2 ^ 112) (h2 : dot c2 < 2 ^ 112) (h3 : dot c3 < 2 ^ 112) (h4 : dot c4 < 2 ^ 110) :
    Computes (fun m _ _ => do
      carry { f0 := ← (sumProducts 128 c0 : m Nat), f1 := ← sumProducts 128 c1
              f2 := ← sumProducts 128 c2, f3 := ← sumProducts 128 c3, f4 := ← sumProducts 128 c4 })
      (Limbs.mk (dot c0) (dot c1) (dot c2) (dot c3) (dot c4)).value := by
  obtain ⟨r, reduced, value, runs⟩ := carry_computes
    (show Below (2 ^ 112) ⟨dot c0, dot c1, dot c2, dot c3, dot c4⟩ by
      constructor <;> simp only <;> omega) h4
  refine ⟨r, reduced, value, fun m _ _ _ _ => ?_⟩
  beta_reduce
  rw [sumProducts_eq (by omega), pure_bind, sumProducts_eq (by omega), pure_bind,
    sumProducts_eq (by omega), pure_bind, sumProducts_eq (by omega), pure_bind,
    sumProducts_eq (by omega), pure_bind]
  exact runs m

theorem mulLimbs_computes {a b : Limbs} (ha : a.WeaklyReduced) (hb : b.WeaklyReduced) :
    Computes (fun _ => mulLimbs a b) (a.value * b.value) := by
  have a0 := lt_twice ha.f0
  have a1 := lt_twice ha.f1
  have a2 := lt_twice ha.f2
  have a3 := lt_twice ha.f3
  have a4 := lt_twice ha.f4
  have b0 := lt_folded hb.f0
  have b1 := lt_folded hb.f1
  have b2 := lt_folded hb.f2
  have b3 := lt_folded hb.f3
  have b1_19 := folded_lt' hb.f1
  have b2_19 := folded_lt' hb.f2
  have b3_19 := folded_lt' hb.f3
  have b4_19 := folded_lt' hb.f4
  have r0 := dot_cons_le (mul_lt a0 b0) (dot_cons_le (mul_lt a1 b4_19) (dot_cons_le
    (mul_lt a2 b3_19) (dot_cons_le (mul_lt a3 b2_19) (dot_cons_le (mul_lt a4 b1_19)
    (dot_nil_le _)))))
  have r1 := dot_cons_le (mul_lt a0 b1) (dot_cons_le (mul_lt a1 b0) (dot_cons_le
    (mul_lt a2 b4_19) (dot_cons_le (mul_lt a3 b3_19) (dot_cons_le (mul_lt a4 b2_19)
    (dot_nil_le _)))))
  have r2 := dot_cons_le (mul_lt a0 b2) (dot_cons_le (mul_lt a1 b1) (dot_cons_le
    (mul_lt a2 b0) (dot_cons_le (mul_lt a3 b4_19) (dot_cons_le (mul_lt a4 b3_19)
    (dot_nil_le _)))))
  have r3 := dot_cons_le (mul_lt a0 b3) (dot_cons_le (mul_lt a1 b2) (dot_cons_le
    (mul_lt a2 b1) (dot_cons_le (mul_lt a3 b0) (dot_cons_le (mul_lt a4 b4_19)
    (dot_nil_le _)))))
  have r4 := dot_cons_le (top_mul_lt a0 hb.f4) (dot_cons_le (top_mul_lt a1 hb.f3) (dot_cons_le
    (top_mul_lt a2 hb.f2) (dot_cons_le (top_mul_lt a3 hb.f1) (dot_cons_le (top_mul_lt a4 hb.f0)
    (dot_nil_le _)))))
  obtain ⟨r, reduced, value, runs⟩ := carryColumns_computes (Nat.lt_of_le_of_lt r0 (by decide))
    (Nat.lt_of_le_of_lt r1 (by decide)) (Nat.lt_of_le_of_lt r2 (by decide))
    (Nat.lt_of_le_of_lt r3 (by decide)) (Nat.lt_of_le_of_lt r4 (by decide))
  refine ⟨r, reduced, ?_, fun m _ _ _ _ => ?_⟩
  · rw [value, ← Nat.cast_mul]
    -- the products above the top limb, each of which was folded back times 19
    refine residue_eq (a.f1 * b.f4 + a.f2 * b.f3 + a.f3 * b.f2 + a.f4 * b.f1 +
      (a.f2 * b.f4 + a.f3 * b.f3 + a.f4 * b.f2) * 2 ^ 51 + (a.f3 * b.f4 + a.f4 * b.f3) * 2 ^ 102 +
      a.f4 * b.f4 * 2 ^ 153) ?_
    simp only [Limbs.value, dot_cons, dot_nil]
    ring
  · have wide : 19 * B < 2 ^ 128 := by decide
    simp only [mulLimbs]
    rw [mul_eq (by omega), pure_bind, mul_eq (by omega), pure_bind, mul_eq (by omega), pure_bind,
      mul_eq (by omega), pure_bind]
    exact runs m

theorem squareLimbs_computes {a : Limbs} (ha : a.WeaklyReduced) :
    Computes (fun _ => squareLimbs a) (a.value * a.value) := by
  have a0_2 := twice_lt ha.f0
  have a1_2 := twice_lt ha.f1
  have a2_2 := twice_lt ha.f2
  have a3_2 := twice_lt ha.f3
  have a3_19 := folded_lt ha.f3
  have a4_19 := folded_lt ha.f4
  have r0 := dot_cons_le (mul_lt (lt_twice ha.f0) (lt_folded ha.f0)) (dot_cons_le (mul_lt a1_2 a4_19)
    (dot_cons_le (mul_lt a2_2 a3_19) (dot_nil_le _)))
  have r1 := dot_cons_le (mul_lt a0_2 (lt_folded ha.f1)) (dot_cons_le (mul_lt a2_2 a4_19) (dot_cons_le
    (mul_lt (lt_twice ha.f3) a3_19) (dot_nil_le _)))
  have r2 := dot_cons_le (mul_lt a0_2 (lt_folded ha.f2)) (dot_cons_le
    (mul_lt (lt_twice ha.f1) (lt_folded ha.f1)) (dot_cons_le (mul_lt a3_2 a4_19) (dot_nil_le _)))
  have r3 := dot_cons_le (mul_lt a0_2 (lt_folded ha.f3)) (dot_cons_le
    (mul_lt a1_2 (lt_folded ha.f2)) (dot_cons_le (mul_lt (lt_twice ha.f4) a4_19) (dot_nil_le _)))
  have r4 := dot_cons_le (top_mul_lt a0_2 ha.f4) (dot_cons_le (top_mul_lt a1_2 ha.f3) (dot_cons_le
    (top_mul_lt (lt_twice ha.f2) ha.f2) (dot_nil_le _)))
  obtain ⟨r, reduced, value, runs⟩ := carryColumns_computes (Nat.lt_of_le_of_lt r0 (by decide))
    (Nat.lt_of_le_of_lt r1 (by decide)) (Nat.lt_of_le_of_lt r2 (by decide))
    (Nat.lt_of_le_of_lt r3 (by decide)) (Nat.lt_of_le_of_lt r4 (by decide))
  refine ⟨r, reduced, ?_, fun m _ _ _ _ => ?_⟩
  · rw [value, ← Nat.cast_mul]
    refine residue_eq (2 * a.f1 * a.f4 + 2 * a.f2 * a.f3 + (2 * a.f2 * a.f4 + a.f3 * a.f3) * 2 ^ 51 +
      2 * a.f3 * a.f4 * 2 ^ 102 + a.f4 * a.f4 * 2 ^ 153) ?_
    simp only [Limbs.value, dot_cons, dot_nil]
    ring
  · have wide : 19 * B < 2 ^ 64 := by decide
    have e0 : (mul 64 2 a.f0 : m Nat) = pure (2 * a.f0) := mul_eq (by omega)
    have e1 : (mul 64 2 a.f1 : m Nat) = pure (2 * a.f1) := mul_eq (by omega)
    have e2 : (mul 128 2 a.f2 : m Nat) = pure (2 * a.f2) := mul_eq (by omega)
    have e3 : (mul 128 2 a.f3 : m Nat) = pure (2 * a.f3) := mul_eq (by omega)
    have e3_19 : (mul 64 19 a.f3 : m Nat) = pure (19 * a.f3) := mul_eq (by omega)
    have e4_19 : (mul 64 19 a.f4 : m Nat) = pure (19 * a.f4) := mul_eq (by omega)
    simp only [squareLimbs, e0, e1, e2, e3, e3_19, e4_19, pure_bind]
    exact runs m

theorem mul121666Limbs_computes {a : Limbs} (ha : a.WeaklyReduced) :
    Computes (fun _ => mul121666Limbs a) (a.value * 121666) := by
  obtain ⟨a0, a1, a2, a3, a4⟩ := ha
  obtain ⟨r, reduced, value, runs⟩ := carry_computes
    (show Below (2 ^ 112) ⟨a.f0 * 121666, a.f1 * 121666, a.f2 * 121666, a.f3 * 121666, a.f4 * 121666⟩ by
      constructor <;> simp only <;> omega) (by simp only; omega)
  refine ⟨r, reduced, ?_, fun m _ _ _ _ => ?_⟩
  · have whole : (Limbs.mk (a.f0 * 121666) (a.f1 * 121666) (a.f2 * 121666) (a.f3 * 121666)
        (a.f4 * 121666)).value = a.value * 121666 := by
      simp only [Limbs.value]
      ring
    rw [value, whole, Nat.cast_mul, Nat.cast_ofNat]
  · simp only [mul121666Limbs]
    rw [mul_eq (by omega), pure_bind, mul_eq (by omega), pure_bind, mul_eq (by omega), pure_bind,
      mul_eq (by omega), pure_bind, mul_eq (by omega), pure_bind]
    exact runs m

end Limbs

end Blindplane.Crypto
