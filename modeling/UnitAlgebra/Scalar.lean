import UnitAlgebra.Failure
import UnitAlgebra.Numeral.Fraction

/-!
# Scalars

A scalar is a number as a caller gives it: an integer, a binary floating-point number, a rational or
the text of a fraction. `value` is the exact rational that it stands for, and `render` its text.
-/

namespace UnitAlgebra

/-- A number as a caller gives it. -/
inductive Scalar
  /-- An integer. -/
  | integer (n : Int)
  /-- A binary floating-point number. -/
  | binary (x : Binary64)
  /-- A rational number. -/
  | rational (r : Rat)
  /-- The text of a fraction, possibly malformed. -/
  | text (s : String)
deriving DecidableEq

namespace Scalar

/-- The rational that a scalar stands for. An infinity, what is no number, and a text that is no
fraction stand for none. -/
def value : Scalar → Except Failure Rat
  | .integer n => .ok (n : Rat)
  | .binary x =>
    match x.value? with
    | some r => .ok r
    | none => .error (.content (.notFinite x))
  | .rational r => .ok r
  | .text s =>
    match Fraction.read s.toList with
    | some r => .ok r
    | none => .error (.content (.notNumeric s))

/-- The text of a scalar. -/
def render : Scalar → String
  | .integer n => Fraction.render (n : Rat)
  | .binary x => x.render
  | .rational r => Fraction.render r
  | .text s => s

/-- A scalar without a value has a fault in its content. -/
theorem exists_fault_of_value_eq_error {x : Scalar} {f : Failure} (h : x.value = .error f) :
    ∃ fault, f = .content fault := by
  cases x <;> simp only [value] at h
  · cases h
  · split at h <;> cases h
    exact ⟨_, rfl⟩
  · cases h
  · split at h <;> cases h
    exact ⟨_, rfl⟩

end Scalar

end UnitAlgebra
