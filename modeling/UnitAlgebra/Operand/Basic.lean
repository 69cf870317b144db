import UnitAlgebra.Expression.Basic

/-!
# Operands

An operand is what a caller may put in the place of an expression. Its content is not checked before
it is converted. `render` shows an operand of any shape, and `isComposition` is a quick guess that
reads nothing.
-/

namespace UnitAlgebra

/-- A value that a caller offers as an expression. -/
inductive Operand
  /-- A text in the notation of products. -/
  | text (s : String)
  /-- An expression. -/
  | expression (e : Expression)
  /-- One term. -/
  | term (t : Term)
  /-- A list of terms. -/
  | terms (ts : List Term)
  /-- A base with its exponent, neither of them checked. -/
  | pair (base : String) (exponent : Scalar)
  /-- A list whose items should be terms and pairs. -/
  | list (items : List Operand)
  /-- A bare number, which is an exponent and no expression. -/
  | number (x : Scalar)

namespace Operand

/-- The shape of an operand. -/
def shape : Operand → Shape
  | .text _ => .text
  | .expression _ => .expression
  | .term _ => .term
  | .terms _ => .terms
  | .pair .. => .pair
  | .list _ => .list
  | .number _ => .number

mutual

/-- The text of an operand. -/
def render : Operand → String
  | .text s => s
  | .expression e => e.render
  | .term t => t.render
  | .terms ts => Terms.render ts
  | .pair base exponent => "(" ++ base ++ ", " ++ exponent.render ++ ")"
  | .list items => "[" ++ ", ".intercalate (renderItems items) ++ "]"
  | .number x => x.render

/-- The texts of the items of a list. -/
def renderItems : List Operand → List String
  | [] => []
  | x :: xs => x.render :: renderItems xs

end

/-- An operand is surely made of several factors: an expression, or a text with a star or slash. A
text without them may be, too. -/
def isComposition : Operand → Bool
  | .expression _ => true
  | .text s => s.toList.any fun c => c == '*' || c == '/'
  | _ => false

end Operand

end UnitAlgebra
