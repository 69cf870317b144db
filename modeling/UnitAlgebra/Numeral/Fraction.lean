import UnitAlgebra.Numeral.Decimal
import UnitAlgebra.Text.Blank

/-!
# Written fractions

A rational number is written as a decimal or as two decimals with a slash between them, with blanks
allowed around each. `read` gives its exact value, and `spell` writes a number in lowest terms,
leaving out a denominator of one.
-/

namespace UnitAlgebra.Fraction

open UnitAlgebra.Text

/-- The value of a written fraction; a zero denominator has none. -/
def read (cs : List Char) : Option Rat :=
  match cut '/' (trim cs) with
  | (numerator, none) => Decimal.read numerator
  | (numerator, some denominator) =>
    match Decimal.read (trim numerator), Decimal.read (trim denominator) with
    | some p, some q => if q = 0 then none else some (p / q)
    | _, _ => none

/-- The characters of a number in lowest terms. -/
def spell (r : Rat) : List Char :=
  (if r.num < 0 then ['-'] else []) ++ Nat.toDigits 10 r.num.natAbs ++
    (if r.den = 1 then [] else '/' :: Nat.toDigits 10 r.den)

/-- The text of a number in lowest terms. -/
def render (r : Rat) : String :=
  String.ofList (spell r)

/-- Writing a number as text writes its characters. -/
theorem toList_render (r : Rat) : (render r).toList = spell r := by
  simp [render]

end UnitAlgebra.Fraction
