import UnitAlgebra.Numeral.Fraction

/-!
# Symbols

The symbols of which the text of a product consists. An exponent is one symbol, however it is
spelled, and stands after a caret.
-/

namespace UnitAlgebra

/-- A symbol of the notation of products. -/
inductive Symbol
  /-- The name of a factor. -/
  | base (name : String)
  /-- The value of an exponent. -/
  | exponent (value : Rat)
  /-- The sign of multiplication. -/
  | star
  /-- The sign of division. -/
  | slash
  /-- The sign that raises to a power. -/
  | caret
deriving DecidableEq

namespace Symbol

/-- The text of one symbol. -/
def render : Symbol → String
  | .base name => name
  | .exponent value => Fraction.render value
  | .star => "*"
  | .slash => "/"
  | .caret => "^"

/-- The text of a list of symbols, with one space between neighbours. -/
def renderAll (symbols : List Symbol) : String :=
  " ".intercalate (symbols.map render)

/-- The operator that a character stands for. -/
def operator? (c : Char) : Option Symbol :=
  if c = '*' then some .star
  else if c = '/' then some .slash
  else if c = '^' then some .caret
  else none

/-- The operators are the star, the slash and the caret. -/
theorem operator?_eq_some_iff {c : Char} {symbol : Symbol} :
    operator? c = some symbol ↔
      (c = '*' ∧ symbol = .star) ∨ (c = '/' ∧ symbol = .slash) ∨ (c = '^' ∧ symbol = .caret) := by
  unfold operator?
  constructor
  · intro h
    split at h
    · next hc => exact .inl ⟨hc, (Option.some.inj h).symm⟩
    · split at h
      · next hc => exact .inr (.inl ⟨hc, (Option.some.inj h).symm⟩)
      · split at h
        · next hc => exact .inr (.inr ⟨hc, (Option.some.inj h).symm⟩)
        · cases h
  · rintro (⟨rfl, rfl⟩ | ⟨rfl, rfl⟩ | ⟨rfl, rfl⟩) <;> rfl

end Symbol

end UnitAlgebra
