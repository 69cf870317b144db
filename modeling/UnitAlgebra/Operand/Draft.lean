import UnitAlgebra.Operand.Conversion

/-!
# Drafts of operands

A draft is an operand as it is written down, before anything in it is checked. It may recall an
expression from a history by its index. `resolve` checks its terms and converts its inner
expressions from left to right; the first fault is the failure of the draft.
-/

namespace UnitAlgebra

/-- An operand as it is written down. -/
inductive Draft
  /-- A text in the notation of products. -/
  | text (s : String)
  /-- The expression that another operand stands for. -/
  | expression (x : Draft)
  /-- A base and its exponent, to be checked as a term. -/
  | term (base : String) (exponent : Rat)
  /-- Bases and exponents, to be checked as terms. -/
  | terms (ts : List (String × Rat))
  /-- A base with its exponent that stay unchecked. -/
  | pair (base : String) (exponent : Scalar)
  /-- A list of operands. -/
  | list (items : List Draft)
  /-- A bare number. -/
  | number (x : Scalar)
  /-- An expression of the history. -/
  | recalled (index : Nat)

/-- The terms of bases and exponents; the first base at fault fails. -/
def Terms.ofBases (ts : List (String × Rat)) : Except Failure (List Term) :=
  ts.mapM fun t => Term.ofBase t.1 t.2

/-- The expressions that came up in a computation, the oldest first. -/
abbrev History := List Expression

/-- The expression of a history at an index. An index past its end gives the empty product. -/
def History.entry (history : History) (index : Nat) : Expression :=
  history.getD index .one

namespace Draft

mutual

/-- The operand of a draft. -/
def resolve (history : History) : Draft → Except Failure Operand
  | .text s => .ok (.text s)
  | .expression x =>
    match resolve history x with
    | .ok y => y.toExpression.map .expression
    | .error f => .error f
  | .term base exponent => (Term.ofBase base exponent).map .term
  | .terms ts => (Terms.ofBases ts).map .terms
  | .pair base exponent => .ok (.pair base exponent)
  | .list items => (resolveItems history items).map .list
  | .number x => .ok (.number x)
  | .recalled index => .ok (.expression (history.entry index))

/-- The operands of a list of drafts. -/
def resolveItems (history : History) : List Draft → Except Failure (List Operand)
  | [] => .ok []
  | x :: xs =>
    match resolve history x with
    | .error f => .error f
    | .ok y =>
      match resolveItems history xs with
      | .error f => .error f
      | .ok ys => .ok (y :: ys)

end

/-- The expression that a draft stands for. -/
def toExpression (history : History) (x : Draft) : Except Failure Expression := do
  let y ← x.resolve history
  y.toExpression

/-- The expressions that drafts stand for; the first draft at fault fails. -/
def toExpressions (history : History) (xs : List Draft) :
    Except Failure (List Expression) :=
  xs.mapM (toExpression history)

end Draft

end UnitAlgebra
