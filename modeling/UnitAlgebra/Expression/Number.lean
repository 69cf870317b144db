import UnitAlgebra.Expression.Basic
import UnitAlgebra.Numeral.Power

/-!
# Expressions that are numbers

An expression has a numeric value when every base is a decimal and every exponent is an integer of
moderate size: the product of the powers. A base of value zero with a negative exponent has none, so
nothing is divided by zero.
-/

namespace UnitAlgebra

/-- The largest magnitude of an exponent for which a power is evaluated. -/
def largestExponent : Nat := 1024

/-- The integer that an exponent is, if it is one and fits a signed word of 64 bits. -/
def integerExponent? (r : Rat) : Option Int64 :=
  if r.den = 1 ∧ Int64.minValue.toInt ≤ r.num ∧ r.num ≤ Int64.maxValue.toInt then
    some (Int64.ofInt r.num)
  else
    none

/-- The value of a term whose base is a decimal and whose exponent is an integer. -/
def Term.number? (t : Term) : Option Rat :=
  match Decimal.read t.base.toList with
  | none => none
  | some base =>
    match integerExponent? t.exponent with
    | none => none
    | some n =>
      -- the magnitude is that of the integer: the least word has none among the words
      if largestExponent < n.toInt.natAbs ∨ base = 0 ∧ n < 0 then none
      else some (Numeral.power base n.toInt)

/-- The product of the values of terms, if each has one. -/
def Terms.number? : List Term → Option Rat
  | [] => some 1
  | t :: ts =>
    match t.number?, number? ts with
    | some x, some y => some (x * y)
    | _, _ => none

/-- The numeric value of an expression. -/
def Expression.number? (a : Expression) : Option Rat :=
  Terms.number? a.terms

/-- The empty product has the value one. -/
theorem Expression.number?_one : Expression.one.number? = some 1 :=
  rfl

end UnitAlgebra
