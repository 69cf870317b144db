import UnitAlgebra.Scalar

/-!
# Terms

A term is a base raised to an exact rational exponent. A base is an opaque name: any characters but
blanks and the five that the notation reserves. `Term.ofBase` checks a base, and `ofBase_isOk_iff`
says that it accepts exactly the valid ones. The base `1` is the neutral factor.
-/

namespace UnitAlgebra

open UnitAlgebra.Text

/-- The characters with a meaning of their own in the notation of products. -/
def isReserved (c : Char) : Bool :=
  c == '*' || c == '/' || c == '^' || c == '(' || c == ')'

/-- The characters of which a base is made. -/
def isBaseChar (c : Char) : Bool :=
  !isBlank c && !isReserved c

/-- A base has at least one character, and base characters only. -/
def ValidBase (base : String) : Prop :=
  base.toList ≠ [] ∧ ∀ c ∈ base.toList, isBaseChar c = true

instance (base : String) : Decidable (ValidBase base) :=
  decidable_of_decidable_of_iff
    (p := (!base.toList.isEmpty && base.toList.all isBaseChar) = true) (by simp [ValidBase])

/-- A base raised to a rational exponent. -/
structure Term where
  /-- The name that is raised. -/
  base : String
  /-- The exponent, exact and possibly zero. -/
  exponent : Rat
deriving DecidableEq

namespace Term

/-- The term of a checked base. The first character that may not stand in a base is reported. -/
def ofBase (base : String) (exponent : Rat) : Except Failure Term :=
  if base.toList.isEmpty then .error (.content .emptyBase)
  else
    match base.toList.find? fun c => !isBaseChar c with
    | some c => .error (.content (.forbidden c base))
    | none => .ok ⟨base, exponent⟩

/-- The term of a checked base with exponent one. -/
def unit (base : String) : Except Failure Term :=
  ofBase base 1

/-- The same base with another exponent. -/
def withExponent (t : Term) (exponent : Rat) : Term :=
  ⟨t.base, exponent⟩

/-- The reciprocal of a term. -/
def inverse (t : Term) : Term :=
  t.withExponent (-t.exponent)

/-- A term raised to a further power: the exponents multiply. -/
def pow (t : Term) (n : Rat) : Term :=
  t.withExponent (t.exponent * n)

/-- The base `1` is the neutral factor, whatever its exponent. -/
def isNeutral (t : Term) : Bool :=
  t.base == "1"

/-- A term alone, with its exponent unless that is one. -/
def render (t : Term) : String :=
  if t.exponent = 1 then t.base else t.base ++ "^" ++ Fraction.render t.exponent

/-- A term with a valid base is accepted as it is. -/
theorem ofBase_eq_ok {base : String} (h : ValidBase base) (exponent : Rat) :
    ofBase base exponent = .ok ⟨base, exponent⟩ := by
  have hnone : (base.toList.find? fun c => !isBaseChar c) = none := by
    rw [List.find?_eq_none]
    intro c hc
    simp [h.2 c hc]
  have hne : base.toList.isEmpty = false := by simpa using h.1
  simp [ofBase, hnone, hne]

/-- What is accepted has a valid base, and is the base with the exponent. -/
theorem validBase_of_ofBase_eq_ok {base : String} {exponent : Rat} {t : Term}
    (h : ofBase base exponent = .ok t) : ValidBase base ∧ t = ⟨base, exponent⟩ := by
  unfold ofBase at h
  split at h
  · cases h
  · next hne =>
    split at h
    · cases h
    · next hnone =>
      cases h
      refine ⟨⟨by simpa using hne, fun c hc => ?_⟩, rfl⟩
      have := List.find?_eq_none.1 hnone c hc
      simpa using this

/-- A base is accepted exactly when it is valid. -/
theorem ofBase_isOk_iff {base : String} {exponent : Rat} :
    (∃ t, ofBase base exponent = .ok t) ↔ ValidBase base :=
  ⟨fun ⟨_, h⟩ => (validBase_of_ofBase_eq_ok h).1, fun h => ⟨_, ofBase_eq_ok h exponent⟩⟩

end Term

end UnitAlgebra
