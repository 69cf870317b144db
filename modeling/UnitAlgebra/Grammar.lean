import UnitAlgebra.Symbol
import UnitAlgebra.Term

/-!
# The grammar of products

A product is an optional slash and then factors with a star or slash between neighbours; a factor is
a base, or a base with a caret and an exponent. A slash turns over the one factor that follows it
and no other. `parse` gives the terms of such a list of symbols in their order, and otherwise the
first place at which the list leaves the grammar, or the last place if it only ends too early.
-/

namespace UnitAlgebra.Grammar

/-- A place in a list of symbols, and what is wrong there. -/
structure Misstep where
  /-- The index of the symbol. -/
  index : Nat
  /-- How the symbol leaves the grammar. -/
  fault : ReadingFault
deriving DecidableEq

/-- The term of a factor, turned over after a slash. -/
def factor (divides : Bool) (base : String) (exponent : Rat) : Term :=
  ⟨base, if divides then -exponent else exponent⟩

mutual

/-- The terms of symbols that start with a factor, where the first of them has index `index` and
`divides` says whether a slash stands in front. -/
def factors (divides : Bool) (index : Nat) : List Symbol → Except Misstep (List Term)
  | .base name :: .caret :: .exponent value :: rest =>
    (continuation (index + 3) rest).map (factor divides name value :: ·)
  -- the caret is at fault, whatever stands in the place of its exponent
  | .base _ :: .caret :: _ => .error ⟨index + 1, .missingExponent⟩
  | .base name :: rest => (continuation (index + 1) rest).map (factor divides name 1 :: ·)
  | .star :: _ => .error ⟨index, if index = 0 then .leadingOperator else .missingFactor⟩
  | .slash :: _ => .error ⟨index, if index = 0 then .leadingOperator else .missingFactor⟩
  | .caret :: _ => .error ⟨index, .missingBase⟩
  | .exponent _ :: _ => .error ⟨index, .missingBase⟩
  | [] => .error ⟨index - 1, .trailingOperator⟩

/-- The terms of symbols that follow a factor: none, or an operator and further factors. -/
def continuation (index : Nat) : List Symbol → Except Misstep (List Term)
  | [] => .ok []
  | .star :: rest => factors false (index + 1) rest
  | .slash :: rest => factors true (index + 1) rest
  | .caret :: _ => .error ⟨index, .repeatedExponent⟩
  | .base _ :: _ => .error ⟨index, .missingOperator⟩
  | .exponent _ :: _ => .error ⟨index, .missingOperator⟩

end

/-- The terms of a list of symbols. -/
def parse : List Symbol → Except Misstep (List Term)
  | .slash :: rest => factors true 1 rest
  | symbols => factors false 0 symbols

end UnitAlgebra.Grammar
