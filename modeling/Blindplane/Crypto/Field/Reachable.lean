import Blindplane.Crypto.Field.Encoding

/-! # Compositions of field operations

Whatever operations are composed, and in whatever order, their routines never overflow.
The bound of one limb after carrying is what each routine needs of its operands and gives
back of its result, so it holds along every composition.
-/

namespace Blindplane.Crypto

open Lib Lib.Arithmetic Curve25519

namespace Limbs

section Chains

variable {m : Type → Type} [Monad m] [Arithmetic m]

/-- Squared `n` times. -/
def squareNLimbs (a : Limbs) : Nat → m Limbs
  | 0 => pure a
  | n + 1 => do (← a.squareNLimbs n).squareLimbs

/-- What the two addition chains share: 250 ones in the exponent, and eleven. -/
def pow250Limbs (z1 : Limbs) : m (Limbs × Limbs) := do
  let z2 ← z1.squareLimbs
  let z8 ← z2.squareNLimbs 2
  let z9 ← z1.mulLimbs z8
  let z11 ← z2.mulLimbs z9
  let z22 ← z11.squareLimbs
  let z_5_0 ← z9.mulLimbs z22
  let z_10_5 ← z_5_0.squareNLimbs 5
  let z_10_0 ← z_10_5.mulLimbs z_5_0
  let z_20_10 ← z_10_0.squareNLimbs 10
  let z_20_0 ← z_20_10.mulLimbs z_10_0
  let z_40_20 ← z_20_0.squareNLimbs 20
  let z_40_0 ← z_40_20.mulLimbs z_20_0
  let z_50_10 ← z_40_0.squareNLimbs 10
  let z_50_0 ← z_50_10.mulLimbs z_10_0
  let z_100_50 ← z_50_0.squareNLimbs 50
  let z_100_0 ← z_100_50.mulLimbs z_50_0
  let z_200_100 ← z_100_0.squareNLimbs 100
  let z_200_0 ← z_200_100.mulLimbs z_100_0
  let z_250_50 ← z_200_0.squareNLimbs 50
  let z_250_0 ← z_250_50.mulLimbs z_50_0
  return (z_250_0, z11)

/-- Multiplicative inverse. -/
def invertLimbs (z1 : Limbs) : m Limbs := do
  let (z_250_0, z11) ← z1.pow250Limbs
  let z_255_5 ← z_250_0.squareNLimbs 5
  z_255_5.mulLimbs z11

/-- The exponent used when taking square roots. -/
def powP58Limbs (z1 : Limbs) : m Limbs := do
  let (z_250_0, _) ← z1.pow250Limbs
  let z_252_2 ← z_250_0.squareNLimbs 2
  z_252_2.mulLimbs z1

end Chains

end Limbs

/-- A finite composition of field operations. -/
inductive FieldExpr where
  | constant (limbs : Limbs) (canonical : limbs.Below (2 ^ 51))
  | fromBytes (bytes : Vector UInt8 32)
  | add (a b : FieldExpr)
  | sub (a b : FieldExpr)
  | neg (a : FieldExpr)
  | mul (a b : FieldExpr)
  | square (a : FieldExpr)
  | squareN (a : FieldExpr) (n : Nat)
  | mul121666 (a : FieldExpr)
  | invert (a : FieldExpr)
  | powP58 (a : FieldExpr)
  | select (a b : FieldExpr) (choice : Choice)
  | swapFirst (a b : FieldExpr) (choice : Choice)
  | swapSecond (a b : FieldExpr) (choice : Choice)
  | conditionalNegate (a : FieldExpr) (choice : Choice)

namespace FieldExpr

/-- Run the operations in a word arithmetic. -/
def eval {m : Type → Type} [Monad m] [Arithmetic m] : FieldExpr → m Limbs
  | constant limbs _ => pure limbs
  | fromBytes bytes => pure (Fe.fromBytes bytes).limbs
  | add a b => do (← a.eval).addLimbs (← b.eval)
  | sub a b => do (← a.eval).subLimbs (← b.eval)
  | neg a => do Fe.ZERO.limbs.subLimbs (← a.eval)
  | mul a b => do (← a.eval).mulLimbs (← b.eval)
  | square a => do (← a.eval).squareLimbs
  | squareN a n => do (← a.eval).squareNLimbs n
  | mul121666 a => do (← a.eval).mul121666Limbs
  | invert a => do (← a.eval).invertLimbs
  | powP58 a => do (← a.eval).powP58Limbs
  | select a b choice => do return Fe.selectLimbs (← a.eval) (← b.eval) choice
  | swapFirst a b choice => do return (Fe.swapLimbs (← a.eval) (← b.eval) choice).1
  | swapSecond a b choice => do return (Fe.swapLimbs (← a.eval) (← b.eval) choice).2
  | conditionalNegate a choice => do
      let a ← a.eval
      return Fe.selectLimbs a (← Fe.ZERO.limbs.subLimbs a) choice

/-- What the operations stand for, over the integers modulo `p`. -/
def residue : FieldExpr → F
  | constant limbs _ => limbs.value
  | fromBytes bytes => (Bytes.ofLe bytes.toList % 2 ^ 255 : Nat)
  | add a b => a.residue + b.residue
  | sub a b => a.residue - b.residue
  | neg a => -a.residue
  | mul a b => a.residue * b.residue
  | square a => a.residue ^ 2
  | squareN a n => a.residue ^ 2 ^ n
  | mul121666 a => a.residue * (121666 : Nat)
  | invert a => a.residue⁻¹
  | powP58 a => a.residue ^ ((P - 5) / 8)
  | select a b choice => if choice.isSet then b.residue else a.residue
  | swapFirst a b choice => if choice.isSet then b.residue else a.residue
  | swapSecond a b choice => if choice.isSet then a.residue else b.residue
  | conditionalNegate a choice => if choice.isSet then -a.residue else a.residue

end FieldExpr

namespace Fe

variable {m : Type → Type} [Monad m] [LawfulMonad m] [Arithmetic m] [Exact m]

/-- What a routine computes under every arithmetic is what it leaves under wrapping. -/
private theorem runs_of {routine : ∀ (m : Type → Type) [Monad m] [Arithmetic m], m Limbs} {residue : F}
    (spec : Limbs.Computes routine residue) : routine m = pure (run routine spec).limbs := by
  have computed := spec
  obtain ⟨r, -, -, runs⟩ := computed
  have wrapped : (run routine spec).limbs = r := runs Id
  rw [runs m, wrapped]

theorem add_runs (a b : Fe) : a.limbs.addLimbs b.limbs = (pure (a.add b).limbs : m Limbs) :=
  runs_of (Limbs.addLimbs_computes a.reduced b.reduced)

theorem sub_runs (a b : Fe) : a.limbs.subLimbs b.limbs = (pure (a.sub b).limbs : m Limbs) :=
  runs_of (Limbs.subLimbs_computes a.reduced b.reduced)

theorem mul_runs (a b : Fe) : a.limbs.mulLimbs b.limbs = (pure (a.mul b).limbs : m Limbs) :=
  runs_of (Limbs.mulLimbs_computes a.reduced b.reduced)

theorem square_runs (a : Fe) : a.limbs.squareLimbs = (pure a.square.limbs : m Limbs) :=
  runs_of (Limbs.squareLimbs_computes a.reduced)

theorem mul121666_runs (a : Fe) : a.limbs.mul121666Limbs = (pure a.mul121666.limbs : m Limbs) :=
  runs_of (Limbs.mul121666Limbs_computes a.reduced)

theorem squareN_runs (a : Fe) (n : Nat) : a.limbs.squareNLimbs n = (pure (a.squareN n).limbs : m Limbs) := by
  induction n with
  | zero => rfl
  | succ n ih => rw [Limbs.squareNLimbs, ih, pure_bind, square_runs, squareN]

theorem pow250_runs (a : Fe) :
    a.limbs.pow250Limbs = (pure (a.pow250.1.limbs, a.pow250.2.limbs) : m (Limbs × Limbs)) := by
  simp only [Limbs.pow250Limbs, square_runs, squareN_runs, mul_runs, pure_bind]
  rfl

theorem invert_runs (a : Fe) : a.limbs.invertLimbs = (pure a.invert.limbs : m Limbs) := by
  simp only [Limbs.invertLimbs, pow250_runs, squareN_runs, mul_runs, pure_bind]
  rfl

theorem powP58_runs (a : Fe) : a.limbs.powP58Limbs = (pure a.powP58.limbs : m Limbs) := by
  simp only [Limbs.powP58Limbs, pow250_runs, squareN_runs, mul_runs, pure_bind]
  rfl

end Fe

namespace FieldExpr

/-- The element that a composition leaves. -/
def element : FieldExpr → Fe
  | constant limbs canonical => ⟨limbs, canonical.mono (by decide)⟩
  | fromBytes bytes => Fe.fromBytes bytes
  | add a b => a.element.add b.element
  | sub a b => a.element.sub b.element
  | neg a => a.element.neg
  | mul a b => a.element.mul b.element
  | square a => a.element.square
  | squareN a n => a.element.squareN n
  | mul121666 a => a.element.mul121666
  | invert a => a.element.invert
  | powP58 a => a.element.powP58
  | select a b choice => Fe.select a.element b.element choice
  | swapFirst a b choice => Fe.select a.element b.element choice
  | swapSecond a b choice => Fe.select b.element a.element choice
  | conditionalNegate a choice => a.element.conditionalNegate choice

theorem element_val (e : FieldExpr) : e.element.val = e.residue := by
  induction e with
  | constant limbs canonical => rfl
  | fromBytes bytes => rw [element, Fe.val, Fe.fromBytes_value, residue]
  | add a b iha ihb => rw [element, Fe.add_val, iha, ihb, residue]
  | sub a b iha ihb => rw [element, Fe.sub_val, iha, ihb, residue]
  | neg a iha => rw [element, Fe.neg_val, iha, residue]
  | mul a b iha ihb => rw [element, Fe.mul_val, iha, ihb, residue]
  | square a iha => rw [element, Fe.square_val, iha, residue]
  | squareN a n iha => rw [element, Fe.squareN_val, iha, residue]
  | mul121666 a iha => rw [element, Fe.mul121666_val, iha, residue, Nat.cast_ofNat]
  | invert a iha => rw [element, Fe.invert_val, iha, residue]
  | powP58 a iha => rw [element, Fe.powP58_val, iha, residue]
  | select a b choice iha ihb => rw [element, Fe.select_val, iha, ihb, residue]
  | swapFirst a b choice iha ihb => rw [element, Fe.select_val, iha, ihb, residue]
  | swapSecond a b choice iha ihb => rw [element, Fe.select_val, iha, ihb, residue]
  | conditionalNegate a choice iha => rw [element, Fe.conditionalNegate_val, iha, residue]

/-- Every arithmetic in which what fits is exact leaves that element. -/
theorem eval_runs {m : Type → Type} [Monad m] [LawfulMonad m] [Arithmetic m] [Exact m] (e : FieldExpr) :
    e.eval = (pure e.element.limbs : m Limbs) := by
  induction e with
  | constant limbs canonical => rfl
  | fromBytes bytes => rfl
  | add a b iha ihb => rw [eval, iha, pure_bind, ihb, pure_bind, Fe.add_runs, element]
  | sub a b iha ihb => rw [eval, iha, pure_bind, ihb, pure_bind, Fe.sub_runs, element]
  | neg a iha => rw [eval, iha, pure_bind, Fe.sub_runs, element, Fe.neg]
  | mul a b iha ihb => rw [eval, iha, pure_bind, ihb, pure_bind, Fe.mul_runs, element]
  | square a iha => rw [eval, iha, pure_bind, Fe.square_runs, element]
  | squareN a n iha => rw [eval, iha, pure_bind, Fe.squareN_runs, element]
  | mul121666 a iha => rw [eval, iha, pure_bind, Fe.mul121666_runs, element]
  | invert a iha => rw [eval, iha, pure_bind, Fe.invert_runs, element]
  | powP58 a iha => rw [eval, iha, pure_bind, Fe.powP58_runs, element]
  | select a b choice iha ihb => rw [eval, iha, pure_bind, ihb, pure_bind, element, Fe.select]
  | swapFirst a b choice iha ihb => rw [eval, iha, pure_bind, ihb, pure_bind, Fe.swapLimbs_eq, element]
  | swapSecond a b choice iha ihb => rw [eval, iha, pure_bind, ihb, pure_bind, Fe.swapLimbs_eq, element]
  | conditionalNegate a choice iha =>
      rw [eval, iha, pure_bind, Fe.sub_runs, pure_bind, element, Fe.conditionalNegate, Fe.neg, Fe.select]

/-- No composition overflows: checked arithmetic never gives up, and wrapping arithmetic
    leaves the same limbs. They are below `2^52` and stand for the right residue. -/
theorem eval_never_overflows (e : FieldExpr) :
    ∃ r : Limbs, (e.eval : Option Limbs) = some r ∧ (e.eval : Id Limbs) = r ∧ r.Below (2 ^ 52) ∧
      (r.value : F) = e.residue := by
  exact ⟨e.element.limbs, eval_runs e, eval_runs e, e.element.reduced.mono (by decide), element_val e⟩

end FieldExpr

/-- The addition chains run without overflow on whatever the operations leave, and raise to
    `p - 2` and `(p - 5) / 8`. A ratio of field elements is a square exactly when the flag of
    `sqrtRatio` is set, and then it returns the even root. -/
theorem Fe.chains_exact :
    P = 2 ^ 255 - 19 ∧
    (∀ x : Fe, (x.limbs.invertLimbs : Option Limbs) = some x.invert.limbs ∧ x.invert.val = x.val ^ (P - 2)) ∧
    (∀ x : Fe, (x.limbs.powP58Limbs : Option Limbs) = some x.powP58.limbs ∧ x.powP58.val = x.val ^ ((P - 5) / 8)) ∧
    ∀ u v : Fe, ((Fe.sqrtRatio u v).2.isSet ↔ ∃ w : F, v.val * w ^ 2 = u.val) ∧
      ((Fe.sqrtRatio u v).2.isSet → v.val * (Fe.sqrtRatio u v).1.val ^ 2 = u.val ∧
        Bytes.ofLe (Fe.sqrtRatio u v).1.toBytes.toList % 2 = 0) := by
  refine ⟨rfl, ?_, ?_, ?_⟩
  · intro x
    exact ⟨Fe.invert_runs x, Fe.invert_pow x⟩
  · intro x
    exact ⟨Fe.powP58_runs x, Fe.powP58_val x⟩
  · intro u v
    constructor
    · constructor
      · intro found
        exact ⟨(Fe.sqrtRatio u v).1.val, Fe.sqrtRatio_sound found⟩
      · rintro ⟨w, root⟩
        exact Fe.sqrtRatio_complete root
    · intro found
      refine ⟨Fe.sqrtRatio_sound found, ?_⟩
      rw [Fe.ofLe_toBytes]
      exact Fe.sqrtRatio_even u v

end Blindplane.Crypto
