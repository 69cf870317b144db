import UnitAlgebra.Operand.Arithmetic
import UnitAlgebra.Operand.Draft

/-!
# Sessions

A session is a running computation on one current expression, with a history of all expressions that
were current. Each step adds one expression to the history: the new one if the step makes one, and
otherwise, after a question or a failure, the current one again. So a step can recall any earlier
expression by its index.
-/

namespace UnitAlgebra

/-- A step of a session. -/
inductive Step
  /-- Multiplies the current expression by an operand. -/
  | multiply (x : Draft)
  /-- Divides the current expression by an operand. -/
  | divide (x : Draft)
  /-- Raises the current expression to an operand. -/
  | raise (x : Draft)
  /-- Multiplies the current expression by an earlier one. -/
  | timesRecalled (index : Nat)
  /-- Divides the current expression by an earlier one. -/
  | overRecalled (index : Nat)
  /-- Multiplies an earlier expression by the current one. -/
  | recalledTimes (index : Nat)
  /-- Divides an earlier expression by the current one. -/
  | recalledOver (index : Nat)
  /-- Raises the current expression to a rational. -/
  | power (n : Rat)
  /-- Takes the reciprocal of the current expression. -/
  | invert
  /-- Puts the expression of an operand in the place of the current one. -/
  | replace (x : Draft)
  /-- Puts the single term of an operand in the place of the current expression. -/
  | replaceByTerm (x : Draft)
  /-- Goes back to an earlier expression. -/
  | goBack (index : Nat)
  /-- Reads the text of the current expression. -/
  | reread
  /-- Starts over from the empty product. -/
  | reset
  /-- Asks whether the current expression is equal to an earlier one. -/
  | isEqual (index : Nat)
  /-- Asks for the numeric value of the current expression. -/
  | number
  /-- Asks for the exponent of a base in the current expression. -/
  | exponentOf (base : String)

/-- What a step answers. -/
inductive Answer
  /-- The new current expression. -/
  | expression (e : Expression)
  /-- Yes or no. -/
  | truth (b : Bool)
  /-- A number, if there is one. -/
  | number (r : Option Rat)
  /-- The step failed. -/
  | failure (f : Failure)

/-- The answer of a computation of an expression. -/
def Answer.ofExcept : Except Failure Expression → Answer
  | .ok e => .expression e
  | .error f => .failure f

/-- The expression that is current after an answer. -/
def Answer.current (before : Expression) : Answer → Expression
  | .expression e => e
  | _ => before

/-- The current expression of a session and those before it, the oldest first. -/
structure Session where
  /-- The expressions that were current before. -/
  past : List Expression
  /-- The current expression. -/
  current : Expression

namespace Session

/-- All expressions that are or were current, the oldest first. -/
def history (s : Session) : History :=
  s.past ++ [s.current]

/-- The expression that follows from the operand of a draft. -/
def withOperand (s : Session) (x : Draft) (f : Operand → Except Failure Expression) : Answer :=
  .ofExcept ((x.resolve s.history).bind f)

/-- The answer to a step. -/
def answer (s : Session) : Step → Answer
  | .multiply x => s.withOperand x s.current.multipliedBy
  | .divide x => s.withOperand x s.current.dividedBy
  | .raise x => s.withOperand x s.current.raisedTo
  | .timesRecalled index => .expression (s.current * s.history.entry index)
  | .overRecalled index => .expression (s.current / s.history.entry index)
  | .recalledTimes index => .expression (s.history.entry index * s.current)
  | .recalledOver index => .expression (s.history.entry index / s.current)
  | .power n => .expression (s.current.pow n)
  | .invert => .expression s.current.inverse
  | .replace x => s.withOperand x Operand.toExpression
  | .replaceByTerm x => s.withOperand x fun y => y.toTerm.map fun t => .ofTerms [t]
  | .goBack index => .expression (s.history.entry index)
  | .reread => .ofExcept (Operand.toExpression (.text s.current.render))
  | .reset => .expression .one
  | .isEqual index => .truth (s.current == s.history.entry index)
  | .number => .number s.current.number?
  | .exponentOf base => .number (s.current.exponentOf? base)

/-- The session after an answer. -/
def next (s : Session) (a : Answer) : Session :=
  ⟨s.history, a.current s.current⟩

/-- The answers to a list of steps, one after the other. -/
def run (s : Session) : List Step → List Answer
  | [] => []
  | step :: steps => s.answer step :: (s.next (s.answer step)).run steps

/-- A new session with its first expression. -/
def start (e : Expression) : Session :=
  ⟨[], e⟩

end Session

end UnitAlgebra
