import UnitAlgebra.Numeral.Shortest

/-!
# Binary floating-point numbers

A `Binary64` is a word of the 64-bit binary interchange format: a sign bit, eleven exponent bits and
fifty-two fraction bits. A finite one stands for the shortest decimal that reads back to it, so
`0.1` is one tenth, and not the binary fraction nearest to it. `value?` is that rational, and
`spell` the decimal's characters.
-/

namespace UnitAlgebra

/-- A number of the 64-bit binary format, given by its word. -/
structure Binary64 where
  /-- The word, with the sign in the highest bit. -/
  bits : UInt64
deriving DecidableEq

namespace Binary64

/-- The lowest fifty-two bits. -/
def fractionField (x : Binary64) : Nat :=
  x.bits.toNat % 0x10000000000000

/-- The eleven bits above the fraction. -/
def exponentField (x : Binary64) : Nat :=
  x.bits.toNat / 0x10000000000000 % 0x800

/-- The sign bit is set. -/
def isNegative (x : Binary64) : Bool :=
  0x8000000000000000 ≤ x.bits.toNat

/-- A word is a number unless all exponent bits are set. -/
def isFinite (x : Binary64) : Bool :=
  x.exponentField != 0x7FF

/-- The magnitude of a finite number. A zero exponent field means no hidden bit; the number below a
power of two is half as far away as the one above, except at the end of the normal range. -/
def magnitude (x : Binary64) : Dyadic :=
  if x.exponentField = 0 then
    -- the unit of the subnormal numbers is that of the smallest normal ones
    ⟨x.fractionField, -1074, false⟩
  else
    ⟨0x10000000000000 + x.fractionField, (x.exponentField : Int) - 1075,
      x.fractionField == 0 && 1 < x.exponentField⟩

/-- The decimal that a finite number stands for, without its sign. -/
def decimal (x : Binary64) : Decimal :=
  if x.magnitude.significand = 0 then ⟨0, 0⟩ else x.magnitude.shortest

/-- The rational that a finite number stands for. -/
def value? (x : Binary64) : Option Rat :=
  if x.isFinite then
    some (if x.isNegative then -x.decimal.value else x.decimal.value)
  else
    none

/-- The characters of a number: positional digits, with the sign of a negative zero kept, and names
for what is no number; what is not even an infinity has no sign. -/
def spell (x : Binary64) : List Char :=
  if !x.isFinite && x.fractionField != 0 then
    ['N', 'a', 'N']
  else
    (if x.isNegative then ['-'] else []) ++
      (if x.isFinite then x.decimal.spell else ['i', 'n', 'f'])

/-- The text of a number. -/
def render (x : Binary64) : String :=
  String.ofList x.spell

end Binary64

end UnitAlgebra
