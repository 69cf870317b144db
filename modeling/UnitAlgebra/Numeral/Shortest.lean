import UnitAlgebra.Numeral.Decimal

/-!
# The shortest decimal that reads back

A `Dyadic` is a positive number `significand * 2 ^ power` of a binary format, with the interval of
reals that round to it. `shortest` picks the decimal with the fewest digits in that interval, the
nearer of two, and the upper one when both are equally near. All of it is arithmetic on naturals: on
the decimal grid `10 ^ exponent` the number itself is the whole number `digits`, and one unit in its
last binary place is the whole number `step`.
-/

namespace UnitAlgebra

/-- A number `significand * 2 ^ power` among its neighbours in a binary format. -/
structure Dyadic where
  /-- The whole number of units in the last place. -/
  significand : Nat
  /-- The power of two of one unit in the last place. -/
  power : Int
  /-- Whether the next number below is half a unit away, not a whole one. -/
  narrowBelow : Bool

namespace Dyadic

/-- The power of ten of the grid on which the number is a whole number. -/
def exponent (x : Dyadic) : Int :=
  if 0 ≤ x.power then 0 else x.power

/-- One unit in the last place, counted on the grid: `2 ^ power = step * 10 ^ exponent`. -/
def step (x : Dyadic) : Nat :=
  if 0 ≤ x.power then Nat.pow 2 x.power.toNat else Nat.pow 5 (-x.power).toNat

/-- The number itself, counted on the grid. -/
def digits (x : Dyadic) : Nat :=
  x.significand * x.step

/-- A distance from the number stays within half of a gap: the end of the interval belongs to it
exactly when the significand is even. -/
def withinHalf (x : Dyadic) (gap distance : Nat) : Bool :=
  if x.significand % 2 = 0 then 2 * distance ≤ gap else 2 * distance < gap

/-- The number at this distance below, counted on the grid, rounds to the number. -/
def roundsFromBelow (x : Dyadic) (distance : Nat) : Bool :=
  if x.narrowBelow then x.withinHalf x.step (2 * distance) else x.withinHalf x.step distance

/-- The number at this distance above, counted on the grid, rounds to the number. -/
def roundsFromAbove (x : Dyadic) (distance : Nat) : Bool :=
  x.withinHalf x.step distance

/-- The point that stands for the number on the grid with `dropped` digits less: of its two
neighbours there the one that rounds to it, and of two the nearer, the upper one in a tie. -/
def neighbour? (x : Dyadic) (dropped : Nat) : Option Nat :=
  let unit := Nat.pow 10 dropped
  let lower := x.digits / unit
  let below := x.digits % unit
  -- a point of the coarser grid itself has its upper neighbour a whole step away
  let above := unit - below
  match x.roundsFromBelow below, x.roundsFromAbove above with
  | true, true => some (if below < above then lower else lower + 1)
  | true, false => some lower
  | false, true => some (lower + 1)
  | false, false => none

/-- The decimal of the coarsest grid that has a point for the number, among the grids that drop at
most `dropped` digits. -/
def coarsest (x : Dyadic) : Nat → Decimal
  | 0 => ⟨x.digits, x.exponent⟩
  | dropped + 1 =>
    match x.neighbour? (dropped + 1) with
    | some point => ⟨point, x.exponent + ((dropped + 1 : Nat) : Int)⟩
    | none => x.coarsest dropped

/-- The decimal with the fewest digits that rounds to the number. The search starts on the grid on
which the number has no digit left, where the only candidate is a power of ten. -/
def shortest (x : Dyadic) : Decimal :=
  x.coarsest (Nat.toDigits 10 x.digits).length

end Dyadic

end UnitAlgebra
