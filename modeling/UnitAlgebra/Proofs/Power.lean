import Mathlib.Logic.Relation
import UnitAlgebra.Proofs.Evaluation

/-!
# Repeated squaring

A power is evaluated on machine words. The exponent is a signed word, and the loop takes the binary
digits off its magnitude, lowest digit first. `Squaring` is what the loop holds between two passes.
A pass does what one call of `squareAndMultiply` does (`squareAndMultiply_pass`), so it keeps the
product so far times the power that is still due (`total_pass`). A run keeps it too
(`total_of_reaches`), and its last state, with no digit left, holds it as its product.

`Evaluates` says with which result an evaluation ends. A negative exponent is evaluated at its
opposite, and one is divided by the result; to divide by zero is a fault. Only the least exponent is
negative together with its opposite, and its evaluation has no end (`not_evaluates_minValue`).
`power_evaluates` is about all other exponents, also those that are larger than an expression
admits. -/

namespace UnitAlgebra.Numeral

open Relation

/-! ## The loop -/

/-- What the loop holds between two passes. -/
structure Squaring where
  /-- The product so far. -/
  acc : Rat
  /-- The factor that belongs to the lowest digit of the exponent. -/
  factor : Rat
  /-- What is left of the exponent. -/
  exponent : UInt64

namespace Squaring

/-- The state in front of the first pass. -/
def start (base : Rat) (exponent : UInt64) : Squaring :=
  ⟨1, base, exponent⟩

/-- The state after a pass. The factor is squared only if a digit is left for it. -/
def pass (s : Squaring) : Squaring where
  acc := if s.exponent &&& 1 = 1 then s.acc * s.factor else s.acc
  factor := if (0 : UInt64) < s.exponent >>> 1 then s.factor * s.factor else s.factor
  exponent := s.exponent >>> 1

/-- A pass is made as long as the exponent has a digit. -/
def Next (s t : Squaring) : Prop :=
  0 < s.exponent ∧ t = s.pass

/-- The product so far times the power that is still due. -/
def total (s : Squaring) : Rat :=
  s.acc * s.factor ^ s.exponent.toNat

/-- A pass halves the exponent. -/
theorem toNat_exponent_pass (s : Squaring) : s.pass.exponent.toNat = s.exponent.toNat / 2 := by
  rw [pass, UInt64.toNat_shiftRight, show (1 : UInt64).toNat % 64 = 1 from rfl,
    Nat.shiftRight_eq_div_pow, pow_one]

/-- The lowest digit decides whether the factor is multiplied in. -/
theorem acc_pass (s : Squaring) :
    s.pass.acc = if s.exponent.toNat % 2 = 1 then s.acc * s.factor else s.acc := by
  have hdigit : s.exponent &&& 1 = 1 ↔ s.exponent.toNat % 2 = 1 := by
    rw [← UInt64.toNat_inj, UInt64.toNat_and, UInt64.toNat_one, Nat.and_one_is_mod]
  simp only [pass, hdigit]

/-- A factor with a digit left for it is squared. -/
theorem factor_pass {s : Squaring} (h : s.exponent.toNat / 2 ≠ 0) :
    s.pass.factor = s.factor * s.factor := by
  have hrest : (0 : UInt64) < s.exponent >>> 1 := by
    rw [UInt64.lt_iff_toNat_lt, UInt64.toNat_zero]
    exact (toNat_exponent_pass s).symm ▸ Nat.pos_of_ne_zero h
  exact if_pos hrest

/-- A pass is one call of the recursion. -/
theorem squareAndMultiply_pass {s : Squaring} (h : 0 < s.exponent) :
    squareAndMultiply s.pass.acc s.pass.factor s.pass.exponent.toNat =
      squareAndMultiply s.acc s.factor s.exponent.toNat := by
  have hpos : s.exponent.toNat ≠ 0 := (UInt64.lt_iff_toNat_lt.1 h).ne'
  conv_rhs => rw [squareAndMultiply, if_neg hpos]
  rw [toNat_exponent_pass, acc_pass]
  by_cases hhalf : s.exponent.toNat / 2 = 0
  · -- the last digit: the recursion stops, and the loop has nothing left
    rw [hhalf, squareAndMultiply, if_pos rfl, if_pos rfl]
  · rw [if_neg hhalf, factor_pass hhalf]

/-- A pass keeps the total. -/
theorem total_pass {s : Squaring} (h : 0 < s.exponent) : s.pass.total = s.total := by
  rw [total, total, ← squareAndMultiply_eq, ← squareAndMultiply_eq, squareAndMultiply_pass h]

/-- A run keeps the total. -/
theorem total_of_reaches {s t : Squaring} (h : ReflTransGen Next s t) : t.total = s.total := by
  induction h with
  | refl => rfl
  | tail _ hnext ih =>
    obtain ⟨hpos, rfl⟩ := hnext
    rw [total_pass hpos, ih]

/-- Every run comes to an end. -/
theorem exists_reaches_zero (s : Squaring) : ∃ t, ReflTransGen Next s t ∧ t.exponent = 0 := by
  induction hn : s.exponent.toNat using Nat.strong_induction_on generalizing s with
  | _ n ih =>
    by_cases hzero : s.exponent = 0
    · exact ⟨s, .refl, hzero⟩
    · have hpos : 0 < s.exponent := UInt64.pos_iff_ne_zero.2 hzero
      have hlt : s.pass.exponent.toNat < n := by
        have hnat := UInt64.lt_iff_toNat_lt.1 hpos
        rw [UInt64.toNat_zero] at hnat
        rw [toNat_exponent_pass]
        omega
      obtain ⟨t, hreaches, ht⟩ := ih _ hlt s.pass rfl
      exact ⟨t, .head ⟨hpos, rfl⟩ hreaches, ht⟩

/-- At the end of a run the product is the power. -/
theorem acc_of_reaches_zero {base : Rat} {exponent : UInt64} {s : Squaring}
    (h : ReflTransGen Next (start base exponent) s) (hs : s.exponent = 0) :
    s.acc = squareAndMultiply 1 base exponent.toNat := by
  have htotal := total_of_reaches h
  rw [total, hs, UInt64.toNat_zero, pow_zero, mul_one] at htotal
  rw [htotal, squareAndMultiply_eq]
  rfl

end Squaring

/-! ## Signed exponents -/

open Squaring

/-- The evaluation of a power comes to an end with a result. -/
inductive Evaluates (base : Rat) : Int64 → Except EvaluationFault Rat → Prop
  /-- Nothing is multiplied. -/
  | zero : Evaluates base 0 (.ok 1)
  /-- One is divided by the power with the opposite exponent. -/
  | negative {n : Int64} {r : Except EvaluationFault Rat} : n < 0 → Evaluates base (-n) r →
    Evaluates base n (r >>= divide 1)
  /-- The loop runs to its end. -/
  | positive {n : Int64} {s : Squaring} : 0 < n → ReflTransGen Next (start base n.toUInt64) s →
    s.exponent = 0 → Evaluates base n (.ok s.acc)

/-- The exponent from which the loop takes its digits. -/
def loopExponent (n : Int64) : UInt64 :=
  (if n < 0 then -n else n).toUInt64

/-- The opposite of an exponent, unless it is the least one. -/
theorem toInt_neg_of_ne {n : Int64} (hn : n ≠ Int64.minValue) : (-n).toInt = -n.toInt := by
  have hne : n.toInt ≠ -2 ^ 63 := fun h => hn (Int64.toInt_inj.1 h)
  have hlow := Int64.le_toInt n
  have hhigh := Int64.toInt_lt n
  rw [Int64.toInt_neg, Int.bmod_eq_of_le (by omega) (by omega)]

/-- The opposite of a negative exponent is not negative, unless it is the least one. -/
theorem zero_le_neg_of_neg {n : Int64} (hn : n ≠ Int64.minValue) (hneg : n < 0) : 0 ≤ -n := by
  have hint : n.toInt < 0 := Int64.lt_iff_toInt_lt.1 hneg
  rw [Int64.le_iff_toInt_le, toInt_neg_of_ne hn, Int64.toInt_zero]
  omega

/-- A word that is not negative stands for the same number without a sign. -/
theorem toNat_toUInt64 {n : Int64} (hn : 0 ≤ n) : n.toUInt64.toNat = n.toInt.natAbs := by
  have hint : 0 ≤ n.toInt := Int64.le_iff_toInt_le.1 hn
  rw [Int64.toNat_toUInt64_of_le hn]
  show n.toInt.toNat = n.toInt.natAbs
  omega

/-- The loop starts with the magnitude of the exponent. -/
theorem toNat_loopExponent {n : Int64} (hn : n ≠ Int64.minValue) :
    (loopExponent n).toNat = n.toInt.natAbs := by
  unfold loopExponent
  split
  · next hneg =>
    rw [toNat_toUInt64 (zero_le_neg_of_neg hn hneg), toInt_neg_of_ne hn, Int.natAbs_neg]
  · next hneg => exact toNat_toUInt64 (Int64.not_lt.1 hneg)

/-- An exponent that is not negative is evaluated by the loop alone. -/
theorem evaluates_iff_of_nonneg {base : Rat} {n : Int64} (hn : 0 ≤ n)
    {r : Except EvaluationFault Rat} :
    Evaluates base n r ↔ r = .ok (squareAndMultiply 1 base n.toInt.natAbs) := by
  constructor
  · intro h
    cases h with
    | zero => rw [Int64.toInt_zero, Int.natAbs_zero, squareAndMultiply, if_pos rfl]
    | negative hneg _ => exact absurd hneg (Int64.not_lt.2 hn)
    | positive _ hreaches hend => rw [acc_of_reaches_zero hreaches hend, toNat_toUInt64 hn]
  · rintro rfl
    by_cases hzero : n = 0
    · rw [hzero, Int64.toInt_zero, Int.natAbs_zero, squareAndMultiply, if_pos rfl]
      exact .zero
    · have hpos : 0 < n := Int64.lt_of_le_of_ne hn (Ne.symm hzero)
      obtain ⟨s, hreaches, hend⟩ := exists_reaches_zero (start base n.toUInt64)
      rw [← toNat_toUInt64 hn, ← acc_of_reaches_zero hreaches hend]
      exact .positive hpos hreaches hend

/-- An exponent other than the least one has exactly one result, the power with a checked
division. -/
theorem evaluates_iff {base : Rat} {n : Int64} (hn : n ≠ Int64.minValue)
    {r : Except EvaluationFault Rat} : Evaluates base n r ↔ r = checkedPower base n.toInt := by
  unfold checkedPower
  by_cases hneg : n < 0
  · have hopposite := zero_le_neg_of_neg hn hneg
    have habs : (-n).toInt.natAbs = n.toInt.natAbs := by rw [toInt_neg_of_ne hn, Int.natAbs_neg]
    have hint : n.toInt < 0 := Int64.lt_iff_toInt_lt.1 hneg
    rw [if_pos hint]
    constructor
    · intro h
      cases h with
      | zero => exact absurd hneg (by decide)
      | negative _ hpower =>
        rw [evaluates_iff_of_nonneg hopposite, habs] at hpower
        rw [hpower]
        rfl
      | positive hpos _ _ => exact absurd hpos (Int64.not_lt.2 (Int64.le_of_lt hneg))
    · rintro rfl
      have hpower : Evaluates base (-n) (.ok (squareAndMultiply 1 base (-n).toInt.natAbs)) :=
        (evaluates_iff_of_nonneg hopposite).2 rfl
      rw [habs] at hpower
      exact .negative hneg hpower
  · have hnonneg : 0 ≤ n := Int64.not_lt.1 hneg
    have hint : ¬n.toInt < 0 := not_lt.2 (Int64.le_iff_toInt_le.1 hnonneg)
    rw [if_neg hint]
    exact evaluates_iff_of_nonneg hnonneg

/-- The least exponent is its own opposite, so that its evaluation has no end. -/
theorem not_evaluates_minValue (base : Rat) (r : Except EvaluationFault Rat) :
    ¬Evaluates base Int64.minValue r := by
  intro h
  generalize hn : Int64.minValue = n at h
  induction h with
  | zero => exact absurd hn (by decide)
  | negative _ _ ih => exact ih (by rw [← hn]; rfl)
  | positive hpos _ _ =>
    subst hn
    exact absurd hpos (by decide)

/-- For every exponent but the least, and a base other than zero if the exponent is negative, the
evaluation has exactly one result, and this is the power. The divisor of the reciprocal is not zero.
In every state of the loop, the product so far times the power that is still due is the power with
the magnitude of the exponent. -/
theorem power_evaluates (base : Rat) (n : Int64) (hn : n ≠ Int64.minValue)
    (hbase : base ≠ 0 ∨ 0 ≤ n) :
    (∀ r, Evaluates base n r ↔ r = .ok (base ^ n.toInt)) ∧
    power base n.toInt = base ^ n.toInt ∧
    (n < 0 → squareAndMultiply 1 base n.toInt.natAbs ≠ 0) ∧
    ∀ s, ReflTransGen Next (start base (loopExponent n)) s →
      s.acc * s.factor ^ s.exponent.toNat = base ^ n.toInt.natAbs := by
  have hguard : ¬(base = 0 ∧ n.toInt < 0) := by
    rintro ⟨hzero, hneg⟩
    rcases hbase with hne | hnonneg
    · exact hne hzero
    · exact absurd (Int64.le_iff_toInt_le.1 hnonneg) (not_le.2 hneg)
  refine ⟨fun r => ?_, power_eq_zpow base n.toInt, fun hneg => ?_, fun s hreaches => ?_⟩
  · rw [evaluates_iff hn, checkedPower_eq, if_neg hguard, power_eq_zpow]
  · have hne : base ≠ 0 := fun hzero => hguard ⟨hzero, Int64.lt_iff_toInt_lt.1 hneg⟩
    rw [squareAndMultiply_eq, one_mul]
    exact pow_ne_zero _ hne
  · calc s.acc * s.factor ^ s.exponent.toNat
        = (start base (loopExponent n)).total := total_of_reaches hreaches
      _ = base ^ n.toInt.natAbs := by rw [total, start, one_mul, toNat_loopExponent hn]

/-- The second least exponent, with a base that makes the power small. -/
theorem power_evaluates_second_least :
    (-9223372036854775807 : Int64) ≠ Int64.minValue ∧
    ((-1 : Rat) ≠ 0 ∨ (0 : Int64) ≤ -9223372036854775807) ∧
    Evaluates (-1) (-9223372036854775807) (.ok (-1)) ∧
    power (-1) (-9223372036854775807) = -1 := by
  have hn : (-9223372036854775807 : Int64) ≠ Int64.minValue := by decide
  have hbase : (-1 : Rat) ≠ 0 ∨ (0 : Int64) ≤ -9223372036854775807 := .inl (by norm_num)
  have hint : (-9223372036854775807 : Int64).toInt = -9223372036854775807 := by decide
  have hodd : Odd (-9223372036854775807 : Int) := by decide
  obtain ⟨hresult, hpower, -⟩ := power_evaluates (-1) (-9223372036854775807) hn hbase
  rw [hint, hodd.neg_one_zpow] at hpower
  refine ⟨hn, hbase, (hresult _).2 ?_, hpower⟩
  rw [hint, hodd.neg_one_zpow]

end UnitAlgebra.Numeral
