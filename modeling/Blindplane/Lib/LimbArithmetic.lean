import Blindplane.Lib.LittleEndian
import Mathlib.Data.List.GetD
import Mathlib.Tactic.Linarith
import Mathlib.Tactic.LinearCombination

/-! # Arithmetic on numerals

Schoolbook multiplication, addition and subtraction of fixed-width numerals, digit by
digit with a carry or a borrow, over any base. One lemma for each says what the digits it
leaves come to. The base is that of machine words in use, and the double width a product
of two digits is computed in is its square.
-/

namespace Blindplane.Lib

/-- A numeral of `n` digits, least significant first. -/
structure Numeral (base n : Nat) (ds : List Nat) : Prop where
  length : ds.length = n
  below : ∀ digit ∈ ds, digit < base

namespace Numeral

variable {base n : Nat} {ds es : List Nat}

theorem value_lt (numeral : Numeral base n ds) : Nat.ofDigits base ds < base ^ n :=
  numeral.length ▸ ofDigits_lt numeral.below

theorem nil : Numeral base 0 [] := ⟨rfl, List.forall_mem_nil _⟩

theorem cons {digit : Nat} (first : digit < base) (rest : Numeral base n ds) :
    Numeral base (n + 1) (digit :: ds) :=
  ⟨congrArg (· + 1) rest.length, List.forall_mem_cons.mpr ⟨first, rest.below⟩⟩

theorem exists_cons (numeral : Numeral base (n + 1) ds) :
    ∃ digit rest, ds = digit :: rest ∧ digit < base ∧ Numeral base n rest := by
  obtain ⟨digit, rest, rfl⟩ := List.exists_cons_of_length_eq_add_one numeral.length
  obtain ⟨first, later⟩ := List.forall_mem_cons.mp numeral.below
  exact ⟨digit, rest, rfl, first, Nat.succ.inj numeral.length, later⟩

theorem append {m : Nat} (front : Numeral base n ds) (back : Numeral base m es) :
    Numeral base (n + m) (ds ++ es) := by
  refine ⟨by rw [List.length_append, front.length, back.length], ?_⟩
  intro digit member
  exact (List.mem_append.mp member).elim (front.below digit) (back.below digit)

theorem take {k : Nat} (numeral : Numeral base n ds) (le : k ≤ n) : Numeral base k (ds.take k) :=
  ⟨by rw [List.length_take, numeral.length, Nat.min_eq_left le],
    fun digit member => numeral.below digit (List.mem_of_mem_take member)⟩

theorem drop (numeral : Numeral base n ds) (k : Nat) : Numeral base (n - k) (ds.drop k) :=
  ⟨by rw [List.length_drop, numeral.length],
    fun digit member => numeral.below digit (List.mem_of_mem_drop member)⟩

theorem zeros (positive : 0 < base) (n : Nat) : Numeral base n (List.replicate n 0) :=
  ⟨List.length_replicate, fun _ member => (List.mem_replicate.mp member).2 ▸ positive⟩

theorem value_zeros (base n : Nat) : Nat.ofDigits base (List.replicate n 0) = 0 := by
  induction n with
  | zero => rfl
  | succ n ih => rw [List.replicate_succ, Nat.ofDigits_cons, ih, Nat.mul_zero]

/-- The digits below and from position `k`. -/
theorem value_split (numeral : Numeral base n ds) {k : Nat} (le : k ≤ n) :
    Nat.ofDigits base ds =
      Nat.ofDigits base (ds.take k) + base ^ k * Nat.ofDigits base (ds.drop k) := by
  conv_lhs => rw [← List.take_append_drop k ds]
  rw [Nat.ofDigits_append, (numeral.take le).length]

theorem value_take (numeral : Numeral base n ds) {k : Nat} (le : k ≤ n) :
    Nat.ofDigits base (ds.take k) = Nat.ofDigits base ds % base ^ k := by
  rw [numeral.value_split le, Nat.add_mul_mod_self_left, Nat.mod_eq_of_lt (numeral.take le).value_lt]

theorem value_drop (numeral : Numeral base n ds) {k : Nat} (le : k ≤ n) (positive : 0 < base) :
    Nat.ofDigits base (ds.drop k) = Nat.ofDigits base ds / base ^ k := by
  rw [numeral.value_split le, Nat.add_mul_div_left _ _ (Nat.pow_pos positive),
    Nat.div_eq_of_lt (numeral.take le).value_lt, Nat.zero_add]

/-- A single digit; beyond the numeral there are zeros. -/
theorem getD (numeral : Numeral base n ds) (positive : 0 < base) (k : Nat) :
    ds.getD k 0 = Nat.ofDigits base ds / base ^ k % base := by
  rcases Nat.lt_or_ge k n with inside | outside
  · have position : k < ds.length := numeral.length ▸ inside
    rw [← numeral.value_drop inside.le positive, List.drop_eq_getElem_cons position, Nat.ofDigits_cons,
      Nat.add_mul_mod_self_left, Nat.mod_eq_of_lt (numeral.below _ (List.getElem_mem position)),
      List.getD_eq_getElem _ _ position]
  · have large := Nat.lt_of_lt_of_le numeral.value_lt (Nat.pow_le_pow_right positive outside)
    rw [Nat.div_eq_of_lt large, Nat.zero_mod, List.getD_eq_default _ _ (numeral.length ▸ outside)]

end Numeral

section Multiplication

/-- One row of a product: `a` times the digits `bs`, added to the digits of the window. -/
def mulRow (base a : Nat) : (bs window : List Nat) → (carry : Nat) → List Nat × Nat
  | b :: bs, digit :: window, carry =>
      let t := (a * b + digit + carry) % base ^ 2
      let (row, top) := mulRow base a bs window (t / base)
      (t % base :: row, top)
  | _, _, carry => ([], carry)

/-- A product of digits, a digit and a carry fit into two digits. -/
theorem mul_add_lt_sq {base a b digit carry : Nat} (ha : a < base) (hb : b < base)
    (hdigit : digit < base) (hcarry : carry < base) : a * b + digit + carry < base ^ 2 := by
  have product : a * b ≤ (base - 1) * (base - 1) := Nat.mul_le_mul (by omega) (by omega)
  obtain ⟨k, rfl⟩ : ∃ k, base = k + 1 := ⟨base - 1, by omega⟩
  rw [Nat.add_sub_cancel] at product
  have square : (k + 1) ^ 2 = k * k + 2 * k + 1 := by ring
  omega

theorem mulRow_spec {base a : Nat} (ha : a < base) :
    ∀ {n : Nat} {bs window : List Nat} {carry : Nat}, Numeral base n bs → Numeral base n window →
      carry < base →
      Numeral base n (mulRow base a bs window carry).1 ∧ (mulRow base a bs window carry).2 < base ∧
        Nat.ofDigits base (mulRow base a bs window carry).1 +
            base ^ n * (mulRow base a bs window carry).2 =
          a * Nat.ofDigits base bs + Nat.ofDigits base window + carry := by
  intro n
  induction n with
  | zero =>
      intro bs window carry hbs hwindow hcarry
      rw [List.eq_nil_of_length_eq_zero hbs.length, List.eq_nil_of_length_eq_zero hwindow.length]
      exact ⟨Numeral.nil, hcarry, by simp [mulRow]⟩
  | succ n ih =>
      intro bs window carry hbs hwindow hcarry
      obtain ⟨b, bs, rfl, hb, hbs⟩ := hbs.exists_cons
      obtain ⟨digit, window, rfl, hdigit, hwindow⟩ := hwindow.exists_cons
      have fits := mul_add_lt_sq ha hb hdigit hcarry
      have positive : 0 < base := Nat.zero_lt_of_lt ha
      have next : (a * b + digit + carry) / base < base := by
        rw [Nat.div_lt_iff_lt_mul positive, ← Nat.pow_two]
        exact fits
      obtain ⟨numeral, top, value⟩ := ih hbs hwindow next
      simp only [mulRow, Nat.mod_eq_of_lt fits]
      refine ⟨numeral.cons (Nat.mod_lt _ positive), top, ?_⟩
      have low := Nat.mod_add_div (a * b + digit + carry) base
      rw [Nat.ofDigits_cons, Nat.ofDigits_cons, Nat.ofDigits_cons, Nat.pow_succ']
      linear_combination low + base * value

/-- The digits `as` times the digits `bs`, added to the window. Row by row the lowest digit
    is final, and the window moves up over the carry. -/
def mulDigits (base : Nat) (bs : List Nat) : (as window : List Nat) → List Nat
  | a :: as, window =>
      let (row, top) := mulRow base a bs window 0
      match row ++ [top] with
      | low :: window => low :: mulDigits base bs as window
      | [] => []
  | [], window => window

theorem mulDigits_spec {base n : Nat} {bs : List Nat} (hbs : Numeral base n bs) (positive : 0 < base) :
    ∀ {m : Nat} {as window : List Nat}, Numeral base m as → Numeral base n window →
      Numeral base (m + n) (mulDigits base bs as window) ∧
        Nat.ofDigits base (mulDigits base bs as window) =
          Nat.ofDigits base as * Nat.ofDigits base bs + Nat.ofDigits base window := by
  intro m
  induction m with
  | zero =>
      intro as window has hwindow
      rw [List.eq_nil_of_length_eq_zero has.length]
      simp only [mulDigits, Nat.ofDigits_nil, Nat.zero_mul, Nat.zero_add]
      exact ⟨hwindow, trivial⟩
  | succ m ih =>
      intro as window has hwindow
      obtain ⟨a, as, rfl, ha, has⟩ := has.exists_cons
      obtain ⟨row, top, value⟩ := mulRow_spec ha hbs hwindow positive
      have whole := row.append (Numeral.nil.cons top)
      obtain ⟨low, next, split, hlow, hnext⟩ := whole.exists_cons
      obtain ⟨numeral, rest⟩ := ih has hnext
      have digits := congrArg (Nat.ofDigits base) split
      rw [Nat.ofDigits_append, row.length, Nat.ofDigits_singleton, value, Nat.ofDigits_cons] at digits
      simp only [mulDigits, split]
      refine ⟨Nat.add_right_comm m 1 n ▸ numeral.cons hlow, ?_⟩
      rw [Nat.ofDigits_cons, Nat.ofDigits_cons, rest]
      linear_combination -digits

/-- The low digits of a product: every row drops what leaves the width. -/
def mulLowDigits (base : Nat) : (as bs window : List Nat) → List Nat
  | a :: as, bs, window =>
      match (mulRow base a bs window 0).1 with
      | low :: window => low :: mulLowDigits base as bs.dropLast window
      | [] => []
  | [], _, window => window

theorem mulLowDigits_spec {base : Nat} (positive : 0 < base) :
    ∀ {n : Nat} {as bs window : List Nat}, Numeral base n as → Numeral base n bs →
      Numeral base n window →
      Numeral base n (mulLowDigits base as bs window) ∧
        Nat.ofDigits base (mulLowDigits base as bs window) =
          (Nat.ofDigits base as * Nat.ofDigits base bs + Nat.ofDigits base window) % base ^ n := by
  intro n
  induction n with
  | zero =>
      intro as bs window has hbs hwindow
      rw [List.eq_nil_of_length_eq_zero has.length, List.eq_nil_of_length_eq_zero hwindow.length]
      exact ⟨Numeral.nil, by rw [Nat.pow_zero, Nat.mod_one]; rfl⟩
  | succ n ih =>
      intro as bs window has hbs hwindow
      obtain ⟨a, as, rfl, ha, has⟩ := has.exists_cons
      obtain ⟨row, top, value⟩ := mulRow_spec ha hbs hwindow positive
      obtain ⟨low, next, split, hlow, hnext⟩ := row.exists_cons
      have kept : Numeral base n bs.dropLast := by
        rw [List.dropLast_eq_take, hbs.length]
        exact hbs.take (Nat.le_succ n)
      obtain ⟨numeral, rest⟩ := ih has kept hnext
      simp only [mulLowDigits, split]
      refine ⟨numeral.cons hlow, ?_⟩
      have high : Nat.ofDigits base bs =
          Nat.ofDigits base bs.dropLast + base ^ n * Nat.ofDigits base (bs.drop n) := by
        rw [List.dropLast_eq_take, hbs.length]
        exact hbs.value_split (Nat.le_succ n)
      rw [split, Nat.ofDigits_cons] at value
      -- what the row and the later rows drop is a multiple of the width
      have whole : (a + base * Nat.ofDigits base as) * Nat.ofDigits base bs + Nat.ofDigits base window =
          low + base * (Nat.ofDigits base as * Nat.ofDigits base bs.dropLast + Nat.ofDigits base next +
            base ^ n * ((mulRow base a bs window 0).2 +
              Nat.ofDigits base as * Nat.ofDigits base (bs.drop n))) := by
        rw [Nat.pow_succ'] at value
        linear_combination base * Nat.ofDigits base as * high - value
      rw [Nat.ofDigits_cons, Nat.ofDigits_cons, rest, whole, Nat.pow_succ', Nat.mod_mul,
        Nat.add_mul_mod_self_left, Nat.mod_eq_of_lt hlow, Nat.add_mul_div_left _ _ positive,
        Nat.div_eq_of_lt hlow, Nat.zero_add, Nat.add_mul_mod_self_left]

end Multiplication

section Subtraction

/-- A difference, digit by digit; the flag reports a borrow. -/
def subBorrow (base : Nat) : (as bs : List Nat) → (borrow : Nat) → List Nat × Nat
  | a :: as, b :: bs, borrow =>
      let d := (a + base - b) % base
      let b1 := if a < b then 1 else 0
      let e := (d + base - borrow) % base
      let b2 := if d < borrow then 1 else 0
      let (rest, last) := subBorrow base as bs (b1 ||| b2)
      (e :: rest, last)
  | _, _, borrow => ([], borrow)

/-- One wrapping difference: it borrows exactly when it wraps. -/
private theorem sub_digit {base a b : Nat} (ha : a < base) (hb : b < base) :
    (a + base - b) % base + b = a + base * (if a < b then 1 else 0) := by
  split
  · rw [Nat.mod_eq_of_lt (by omega)]
    omega
  · have shifted : a + base - b = a - b + base := by omega
    rw [shifted, Nat.add_mod_right, Nat.mod_eq_of_lt (by omega)]
    omega

/-- Not both differences of one digit borrow. -/
private theorem or_borrow {base a b borrow : Nat} (hb : b < base) (bit : borrow ≤ 1) :
    ((if a < b then 1 else 0) ||| if (a + base - b) % base < borrow then 1 else 0 : Nat) =
      (if a < b then 1 else 0) + if (a + base - b) % base < borrow then 1 else 0 := by
  by_cases first : a < b
  · have apart : ¬ (a + base - b) % base < borrow := by
      rw [Nat.mod_eq_of_lt (by omega)]
      omega
    rw [if_pos first, if_neg apart]
    rfl
  · rw [if_neg first, Nat.zero_or, Nat.zero_add]

theorem subBorrow_spec {base : Nat} (large : 1 < base) :
    ∀ {n : Nat} {as bs : List Nat} {borrow : Nat}, Numeral base n as → Numeral base n bs → borrow ≤ 1 →
      Numeral base n (subBorrow base as bs borrow).1 ∧ (subBorrow base as bs borrow).2 ≤ 1 ∧
        Nat.ofDigits base (subBorrow base as bs borrow).1 + Nat.ofDigits base bs + borrow =
          Nat.ofDigits base as + base ^ n * (subBorrow base as bs borrow).2 := by
  intro n
  induction n with
  | zero =>
      intro as bs borrow has hbs bit
      rw [List.eq_nil_of_length_eq_zero has.length, List.eq_nil_of_length_eq_zero hbs.length]
      exact ⟨Numeral.nil, bit, by simp [subBorrow]⟩
  | succ n ih =>
      intro as bs borrow has hbs bit
      obtain ⟨a, as, rfl, ha, has⟩ := has.exists_cons
      obtain ⟨b, bs, rfl, hb, hbs⟩ := hbs.exists_cons
      have positive : 0 < base := Nat.zero_lt_of_lt ha
      have first := sub_digit ha hb
      have second := @sub_digit base ((a + base - b) % base) borrow (Nat.mod_lt _ positive) (by omega)
      have out : ((if a < b then 1 else 0) + if (a + base - b) % base < borrow then 1 else 0) ≤ 1 := by
        rw [← or_borrow hb bit]
        split <;> split <;> decide
      simp only [subBorrow]
      rw [or_borrow hb bit]
      obtain ⟨numeral, last, value⟩ := ih has hbs out
      refine ⟨numeral.cons (Nat.mod_lt _ positive), last, ?_⟩
      rw [Nat.ofDigits_cons, Nat.ofDigits_cons, Nat.ofDigits_cons, Nat.pow_succ']
      linear_combination second + first + base * value

/-- A sum, digit by digit; the flag reports a carry. -/
def addCarry (base : Nat) : (as bs : List Nat) → (carry : Nat) → List Nat × Nat
  | a :: as, b :: bs, carry =>
      let s := (a + b) % base
      let c1 := if a + b < base then 0 else 1
      let t := (s + carry) % base
      let c2 := if s + carry < base then 0 else 1
      let (rest, last) := addCarry base as bs (c1 ||| c2)
      (t :: rest, last)
  | _, _, carry => ([], carry)

/-- One wrapping sum: it carries exactly when it wraps. -/
private theorem add_digit {base a b : Nat} (ha : a < base) (hb : b < base) :
    (a + b) % base + base * (if a + b < base then 0 else 1) = a + b := by
  split
  · next fits => rw [Nat.mod_eq_of_lt fits, Nat.mul_zero, Nat.add_zero]
  · rw [Nat.mod_eq_sub_mod (by omega), Nat.mod_eq_of_lt (by omega)]
    omega

/-- Not both sums of one digit carry. -/
private theorem or_carry {base a b carry : Nat} (ha : a < base) (hb : b < base) (bit : carry ≤ 1) :
    ((if a + b < base then 0 else 1) ||| if (a + b) % base + carry < base then 0 else 1 : Nat) =
      (if a + b < base then 0 else 1) + if (a + b) % base + carry < base then 0 else 1 := by
  by_cases first : a + b < base
  · rw [if_pos first, Nat.zero_or, Nat.zero_add]
  · have apart : (a + b) % base + carry < base := by
      rw [Nat.mod_eq_sub_mod (by omega), Nat.mod_eq_of_lt (by omega)]
      omega
    rw [if_neg first, if_pos apart]
    rfl

theorem addCarry_spec {base : Nat} (large : 1 < base) :
    ∀ {n : Nat} {as bs : List Nat} {carry : Nat}, Numeral base n as → Numeral base n bs → carry ≤ 1 →
      Numeral base n (addCarry base as bs carry).1 ∧ (addCarry base as bs carry).2 ≤ 1 ∧
        Nat.ofDigits base (addCarry base as bs carry).1 + base ^ n * (addCarry base as bs carry).2 =
          Nat.ofDigits base as + Nat.ofDigits base bs + carry := by
  intro n
  induction n with
  | zero =>
      intro as bs carry has hbs bit
      rw [List.eq_nil_of_length_eq_zero has.length, List.eq_nil_of_length_eq_zero hbs.length]
      exact ⟨Numeral.nil, bit, by simp [addCarry]⟩
  | succ n ih =>
      intro as bs carry has hbs bit
      obtain ⟨a, as, rfl, ha, has⟩ := has.exists_cons
      obtain ⟨b, bs, rfl, hb, hbs⟩ := hbs.exists_cons
      have positive : 0 < base := Nat.zero_lt_of_lt ha
      have first := add_digit ha hb
      have second := @add_digit base ((a + b) % base) carry (Nat.mod_lt _ positive) (by omega)
      have out : ((if a + b < base then 0 else 1) + if (a + b) % base + carry < base then 0 else 1) ≤ 1 := by
        rw [← or_carry ha hb bit]
        split <;> split <;> decide
      simp only [addCarry]
      rw [or_carry ha hb bit]
      obtain ⟨numeral, last, value⟩ := ih has hbs out
      refine ⟨numeral.cons (Nat.mod_lt _ positive), last, ?_⟩
      rw [Nat.ofDigits_cons, Nat.ofDigits_cons, Nat.ofDigits_cons, Nat.pow_succ']
      linear_combination second + first + base * value

end Subtraction

/-- Barrett's estimate of a quotient, from the high part of the number and a reciprocal:
    it is never too large and at most two too small. -/
theorem barrett_estimate {x low high modulus : Nat} (positive : 0 < low) (small : low ≤ modulus)
    (fits : x < low * high) :
    ∃ r, x = x / low * (low * high / modulus) / high * modulus + r ∧ r < 3 * modulus := by
  have highPositive : 0 < high := Nat.pos_of_ne_zero fun zero => by rw [zero] at fits; cases fits
  have modulusPositive := Nat.lt_of_lt_of_le positive small
  have hx := Nat.mod_add_div x low
  have hmu := Nat.mod_add_div (low * high) modulus
  have hq := Nat.mod_add_div (x / low * (low * high / modulus)) high
  have sLt := Nat.mod_lt x positive
  have rhoLt := Nat.mod_lt (low * high) modulusPositive
  have tauLt := Nat.mod_lt (x / low * (low * high / modulus)) highPositive
  have q1Lt : x / low < high := by rwa [Nat.div_lt_iff_lt_mul positive, Nat.mul_comm]
  generalize x / low * (low * high / modulus) / high = q3 at *
  generalize x / low * (low * high / modulus) % high = tau at *
  generalize low * high % modulus = rho at *
  generalize low * high / modulus = mu at *
  generalize x % low = s at *
  generalize x / low = q1 at *
  -- everything that the three divisions rounded off, over one denominator
  have exact : x * high = q3 * modulus * high + (tau * modulus + q1 * rho + s * high) := by
    linear_combination -(high * hx) - q1 * hmu - modulus * hq
  have bound : tau * modulus + q1 * rho + s * high < 3 * modulus * high := by
    have first : tau * modulus < high * modulus := Nat.mul_lt_mul_of_pos_right tauLt modulusPositive
    have second : q1 * rho ≤ high * modulus := Nat.mul_le_mul q1Lt.le rhoLt.le
    have third : s * high ≤ modulus * high := Nat.mul_le_mul_right _ (by omega)
    linarith
  have le : q3 * modulus ≤ x :=
    Nat.le_of_mul_le_mul_right (exact ▸ Nat.le_add_right _ _) highPositive
  refine ⟨x - q3 * modulus, (Nat.add_sub_cancel' le).symm, ?_⟩
  refine Nat.lt_of_mul_lt_mul_right (?_ : _ * high < _ * high)
  rw [Nat.sub_mul, exact, Nat.add_sub_cancel_left]
  exact bound

end Blindplane.Lib
