import UnitAlgebra.Text.Cut

/-!
# Decimals

A `Decimal` is a whole number times a power of ten. It is written positionally, without an exponent
mark. The decimals that are read are an optional sign, ASCII digits, and at most one point with
digits on at least one side: `2`, `-3`, `1.5`, `2.`, `.5`; `read` gives the exact rational that one
denotes.
-/

namespace UnitAlgebra

/-- The number `digits * 10 ^ exponent`. -/
structure Decimal where
  /-- The written digits as one whole number. -/
  digits : Nat
  /-- The power of ten of the last digit. -/
  exponent : Int

namespace Decimal

open UnitAlgebra.Text

/-- The characters before the point. -/
def wholePart (cs : List Char) : List Char :=
  (cut '.' cs).1

/-- The characters after the point, none if there is no point. -/
def fractionPart (cs : List Char) : List Char :=
  (cut '.' cs).2.getD []

/-- The value of an unsigned decimal: its digits as one whole number over a power of ten with as
many zeros as there are digits after the point. The count of these digits is not cut to a word of 32
bits, so texts of fewer than `2 ^ 32` characters are meant. -/
def magnitude? (cs : List Char) : Option Rat :=
  let digits := wholePart cs ++ fractionPart cs
  if !digits.isEmpty && digits.all Char.isDigit then
    some ((Nat.ofDigitChars 10 digits 0 : Rat) / (10 : Rat) ^ (fractionPart cs).length)
  else
    none

/-- The value of a decimal with at most one sign in front. -/
def read : List Char → Option Rat
  | '-' :: cs => (magnitude? cs).map fun r => -r
  | '+' :: cs => magnitude? cs
  | cs => magnitude? cs

/-- The rational number that a decimal is. -/
def value (d : Decimal) : Rat :=
  (d.digits : Rat) * (10 : Rat) ^ d.exponent

/-- The positional characters of a decimal: zeros fill the places up to the point, and a number
below one has a single zero before the point. -/
def spell (d : Decimal) : List Char :=
  let written := Nat.toDigits 10 d.digits
  if 0 ≤ d.exponent then
    written ++ List.replicate d.exponent.toNat '0'
  else
    let places := (-d.exponent).toNat
    let padded := List.replicate (places + 1 - written.length) '0' ++ written
    padded.take (padded.length - places) ++ '.' :: padded.drop (padded.length - places)

/-- A run of digits denotes the natural number that it writes. -/
theorem magnitude?_toDigits (n : Nat) : magnitude? (Nat.toDigits 10 n) = some (n : Rat) := by
  have hdot : '.' ∉ Nat.toDigits 10 n := fun h =>
    absurd (Nat.isDigit_of_mem_toDigits (by decide) (by decide) h) (by decide)
  have hall : (Nat.toDigits 10 n).all Char.isDigit := by
    simp only [List.all_eq_true]
    exact fun c hc => Nat.isDigit_of_mem_toDigits (by decide) (by decide) hc
  have hne : (Nat.toDigits 10 n).isEmpty = false := by
    simp [Nat.toDigits_ne_nil]
  have hone : (n : Rat) / (10 : Rat) ^ ([] : List Char).length = n := by
    rw [List.length_nil]
    grind
  simp only [magnitude?, wholePart, fractionPart, cut_of_notMem hdot, Option.getD_none,
    List.append_nil, hall, hne, Nat.ofDigitChars_ten_toDigits, hone, Bool.not_false, Bool.and_self,
    if_true]

end Decimal

end UnitAlgebra
