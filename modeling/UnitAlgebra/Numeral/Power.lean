/-!
# Integer powers of rationals

`power` raises a rational to an integer by repeated squaring. `squareAndMultiply` keeps
`acc * base ^ n` while it halves `n`, and does not square after the last multiplication.
-/

namespace UnitAlgebra.Numeral

/-- The product `acc * base ^ n`, by one squaring for each further binary digit of `n`. -/
def squareAndMultiply (acc base : Rat) (n : Nat) : Rat :=
  if n = 0 then acc
  else
    let next := if n % 2 = 1 then acc * base else acc
    if n / 2 = 0 then next else squareAndMultiply next (base * base) (n / 2)
termination_by n
decreasing_by omega

/-- The power `base ^ n`; for a negative `n` the reciprocal of the power with the opposite
exponent. -/
def power (base : Rat) (n : Int) : Rat :=
  if n < 0 then 1 / squareAndMultiply 1 base n.natAbs else squareAndMultiply 1 base n.natAbs

end UnitAlgebra.Numeral
