import Mathlib.Data.List.Forall2
import UnitAlgebra.Proofs.Decimal
import UnitAlgebra.Proofs.Number

/-!
# The evaluation of an expression

`Term.Denotes` says when a term is the power of a written number: its base is a decimal, its
exponent an integer of moderate size, and zero has no negative exponent. An expression has a numeric
value exactly when all of its terms are such powers, and the value is their product
(`number?_exact`).

The evaluation divides in two places: the digits of a decimal by a power of ten, and one by a power
where the exponent is negative. Division by zero gives zero in the logic, so a definition alone does
not say that it is never done. The checked evaluation goes through the terms in their order, stops
at the first one without a value, and fails where a divisor is zero; `checkedNumber?_eq` says that
it never fails, also not on the terms in front of the one at which it stops. -/

namespace UnitAlgebra

/-! ## Powers that terms denote -/

namespace Term

/-- A term is a power of a written number. -/
structure Denotes (t : Term) (x : Rat) (n : Int) : Prop where
  /-- The base is a decimal with the value `x`. -/
  base : Decimal.Denotes t.base.toList x
  /-- The exponent is the integer `n`. -/
  exponent : t.exponent = n
  /-- The exponent is of moderate size. -/
  natAbs_le : n.natAbs ≤ 1024
  /-- Zero has no negative exponent. -/
  nonneg_of_eq_zero : x = 0 → 0 ≤ n

/-- A term has a value exactly when it is a power of a written number, and the value is the power.
-/
theorem number?_eq_some_iff_denotes {t : Term} {v : Rat} :
    t.number? = some v ↔ ∃ x n, t.Denotes x n ∧ v = x ^ n := by
  rw [number?_eq_some_iff]
  constructor
  · rintro ⟨hnumber, rfl⟩
    obtain ⟨x, hx⟩ := Option.isSome_iff_exists.1 hnumber.isSome_read
    obtain ⟨hden, habs, hguard⟩ := (hasNumber_iff_of_read hx).1 hnumber
    have hexponent : t.exponent = (t.exponent.num : Rat) :=
      (Rat.coe_int_num_of_den_eq_one hden).symm
    have hnonneg : x = 0 → 0 ≤ t.exponent.num :=
      fun hzero => not_lt.1 fun hneg => hguard ⟨hzero, hneg⟩
    refine ⟨x, _, ⟨Decimal.read_eq_some_iff.1 hx, hexponent, habs, hnonneg⟩, ?_⟩
    rw [number, baseValue, hx, Option.getD_some]
  · rintro ⟨x, n, ⟨hbase, hexponent, habs, hnonneg⟩, rfl⟩
    have hx := Decimal.read_eq_some_iff.2 hbase
    have hnum : t.exponent.num = n := by rw [hexponent, Rat.num_intCast]
    have hden : t.exponent.den = 1 := by rw [hexponent, Rat.den_intCast]
    refine ⟨(hasNumber_iff_of_read hx).2 ⟨hden, hnum ▸ habs, ?_⟩, ?_⟩
    · rintro ⟨hzero, hneg⟩
      exact absurd (hnonneg hzero) (not_le.2 (hnum ▸ hneg))
    · rw [number, baseValue, hx, Option.getD_some, hnum]

/-- The terms that have a value are the powers of written numbers. -/
theorem hasNumber_iff_exists_denotes {t : Term} : t.HasNumber ↔ ∃ x n, t.Denotes x n := by
  constructor
  · intro h
    have hvalue : t.number? = some t.number := number?_eq_some_iff.2 ⟨h, rfl⟩
    obtain ⟨x, n, ht, -⟩ := number?_eq_some_iff_denotes.1 hvalue
    exact ⟨x, n, ht⟩
  · rintro ⟨x, n, h⟩
    have hvalue : t.number? = some (x ^ n) := number?_eq_some_iff_denotes.2 ⟨x, n, h, rfl⟩
    exact (number?_eq_some_iff.1 hvalue).1

end Term

namespace Terms

/-- A list of terms has a value exactly when they are powers of written numbers, and the value is
the product of the powers. -/
theorem number?_eq_some_iff_denotes {ts : List Term} {v : Rat} :
    number? ts = some v ↔ ∃ factors : List (Rat × Int),
      List.Forall₂ (fun t f => t.Denotes f.1 f.2) ts factors ∧
        v = (factors.map fun f => f.1 ^ f.2).prod := by
  induction ts generalizing v with
  | nil => simp [number?, eq_comm]
  | cons t ts ih =>
    rw [number?_cons_eq_some_iff]
    constructor
    · rintro ⟨_, _, hx, hy, rfl⟩
      obtain ⟨x, n, ht, rfl⟩ := Term.number?_eq_some_iff_denotes.1 hx
      obtain ⟨factors, hts, rfl⟩ := ih.1 hy
      exact ⟨(x, n) :: factors, .cons ht hts, by rw [List.map_cons, List.prod_cons]⟩
    · rintro ⟨_, hts, rfl⟩
      cases hts with
      | cons ht hts =>
        exact ⟨_, _, Term.number?_eq_some_iff_denotes.2 ⟨_, _, ht, rfl⟩, ih.2 ⟨_, hts, rfl⟩,
          by rw [List.map_cons, List.prod_cons]⟩

end Terms

/-! ## Checked evaluation -/

/-- What may go wrong when numbers are evaluated. -/
inductive EvaluationFault
  /-- A divisor is zero. -/
  | zeroDivisor
deriving DecidableEq

namespace Numeral

/-- The quotient of two numbers, if the divisor is not zero. -/
def divide (x y : Rat) : Except EvaluationFault Rat :=
  if y = 0 then .error .zeroDivisor else .ok (x / y)

/-- The power of `power` with a checked division. -/
def checkedPower (base : Rat) (n : Int) : Except EvaluationFault Rat :=
  if n < 0 then divide 1 (squareAndMultiply 1 base n.natAbs)
  else .ok (squareAndMultiply 1 base n.natAbs)

/-- A power divides by zero exactly when zero has a negative exponent. -/
theorem checkedPower_eq (base : Rat) (n : Int) : checkedPower base n =
    if base = 0 ∧ n < 0 then .error .zeroDivisor else .ok (power base n) := by
  unfold checkedPower power divide
  by_cases hn : n < 0
  · have hdivisor : squareAndMultiply 1 base n.natAbs = 0 ↔ base = 0 := by
      have habs : n.natAbs ≠ 0 := by omega
      rw [squareAndMultiply_eq, one_mul, pow_eq_zero_iff habs]
    simp only [hn, if_true, and_true, hdivisor]
  · simp only [hn, if_false, and_false]

end Numeral

namespace Decimal

/-- The magnitude of `magnitude?` with a checked division. -/
def checkedMagnitude? (cs : List Char) : Except EvaluationFault (Option Rat) :=
  let digits := wholePart cs ++ fractionPart cs
  if !digits.isEmpty && digits.all Char.isDigit then
    (Numeral.divide (Nat.ofDigitChars 10 digits 0) (10 ^ (fractionPart cs).length)).map some
  else
    .ok none

/-- The number of `read` with a checked division. -/
def checkedRead : List Char → Except EvaluationFault (Option Rat)
  | '-' :: cs => (checkedMagnitude? cs).map fun r => r.map fun x => -x
  | '+' :: cs => checkedMagnitude? cs
  | cs => checkedMagnitude? cs

/-- No magnitude divides by zero. -/
theorem checkedMagnitude?_eq (cs : List Char) : checkedMagnitude? cs = .ok (magnitude? cs) := by
  have hpow : (10 : Rat) ^ (fractionPart cs).length ≠ 0 := pow_ne_zero _ (by norm_num)
  unfold checkedMagnitude? magnitude?
  simp only [Numeral.divide, hpow, if_false]
  split <;> rfl

/-- No decimal divides by zero. -/
theorem checkedRead_eq (cs : List Char) : checkedRead cs = .ok (read cs) := by
  unfold checkedRead
  split
  · rw [checkedMagnitude?_eq]
    rfl
  · exact checkedMagnitude?_eq _
  · next hminus hplus =>
    rw [checkedMagnitude?_eq, read]
    · exact hminus
    · exact hplus

end Decimal

/-- The value of a term by checked divisions. -/
def Term.checkedNumber? (t : Term) : Except EvaluationFault (Option Rat) := do
  match ← Decimal.checkedRead t.base.toList with
  | none => .ok none
  | some base =>
    match integerExponent? t.exponent with
    | none => .ok none
    | some n =>
      if largestExponent < n.toInt.natAbs ∨ base = 0 ∧ n < 0 then .ok none
      else (Numeral.checkedPower base n.toInt).map some

/-- The product of `acc` and the values of terms by checked divisions, up to the first term without
a value. -/
def Terms.checkedNumber? (acc : Rat) : List Term → Except EvaluationFault (Option Rat)
  | [] => .ok (some acc)
  | t :: ts => do
    match ← t.checkedNumber? with
    | none => .ok none
    | some x => checkedNumber? (acc * x) ts

/-- No term divides by zero. -/
theorem Term.checkedNumber?_eq (t : Term) : t.checkedNumber? = .ok t.number? := by
  unfold checkedNumber? number?
  rw [Decimal.checkedRead_eq]
  cases Decimal.read t.base.toList with
  | none => rfl
  | some base =>
    simp only [bind, Except.bind]
    cases integerExponent? t.exponent with
    | none => rfl
    | some n =>
      dsimp only
      split
      · rfl
      · next hguard =>
        have hzero : ¬(base = 0 ∧ n.toInt < 0) := fun hdivide =>
          hguard (.inr ⟨hdivide.1, Int64.lt_iff_toInt_lt.2 hdivide.2⟩)
        rw [Numeral.checkedPower_eq, if_neg hzero]
        rfl

/-- No list of terms divides by zero, wherever the evaluation stops. -/
theorem Terms.checkedNumber?_eq (acc : Rat) (ts : List Term) :
    checkedNumber? acc ts = .ok ((number? ts).map (acc * ·)) := by
  induction ts generalizing acc with
  | nil => simp [checkedNumber?, number?]
  | cons t ts ih =>
    rw [checkedNumber?, Term.checkedNumber?_eq, number?]
    simp only [bind, Except.bind]
    cases t.number? with
    | none => rfl
    | some x =>
      simp only [ih]
      cases number? ts with
      | none => rfl
      | some y => simp [mul_assoc]

/-- An expression has a numeric value exactly when each base is a decimal, each exponent an integer
of moderate size, and no zero has a negative exponent. The value is the product of the powers, and
it is found without a division by zero. -/
theorem number?_exact (e : Expression) :
    ((∃ v, e.number? = some v) ↔ ∀ t ∈ e.terms, ∃ x n, t.Denotes x n) ∧
    (∀ v, e.number? = some v ↔ ∃ factors : List (Rat × Int),
      List.Forall₂ (fun t f => t.Denotes f.1 f.2) e.terms factors ∧
        v = (factors.map fun f => f.1 ^ f.2).prod) ∧
    Terms.checkedNumber? 1 e.terms = .ok e.number? := by
  refine ⟨?_, fun v => Terms.number?_eq_some_iff_denotes, ?_⟩
  · simp only [Expression.number?, Terms.number?_eq_some_iff, exists_and_left, exists_eq, and_true,
      Term.hasNumber_iff_exists_denotes]
  · rw [Terms.checkedNumber?_eq]
    simp [Expression.number?]

end UnitAlgebra
