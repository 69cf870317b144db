import UnitAlgebra.Grammar
import UnitAlgebra.Lexeme.Scan

/-!
# The text of a list of terms

`render` writes terms in their order: a factor with a negative exponent after a slash, any other
after a star, each with the magnitude of its exponent unless that is one. The empty list is `1`, and
so is what stands in front of a leading slash. `read` goes the other way and reads any text of the
grammar; it leaves out the factors with the neutral base.
-/

namespace UnitAlgebra

/-- A term with its exponent made nonnegative. -/
def Term.magnitude (t : Term) : Term :=
  if t.exponent < 0 then t.inverse else t

namespace Terms

/-- The text of the terms after the first. -/
def renderRest : List Term → String
  | [] => ""
  | t :: ts => (if t.exponent < 0 then " / " else " * ") ++ t.magnitude.render ++ renderRest ts

/-- The text of a list of terms. -/
def render : List Term → String
  | [] => "1"
  | t :: ts => (if t.exponent < 0 then "1 / " else "") ++ t.magnitude.render ++ renderRest ts

/-- The terms of a text without the neutral ones, in the order in which they are written. A failure
of the grammar shows the text about the symbol at fault. -/
def read (text : String) : Except Failure (List Term) :=
  if text.toList.all Text.isBlank then
    .error (.reading text .blank)
  else
    match Lexeme.scan text with
    | .error f => .error f
    | .ok lexemes =>
      match Grammar.parse (lexemes.map Lexeme.symbol) with
      | .ok ts => .ok (ts.filter fun t => !t.isNeutral)
      | .error step =>
        .error (.reading (String.ofList (Lexeme.around lexemes step.index)) step.fault)

/-- Reading leaves no neutral term. -/
theorem isNeutral_of_mem_read {text : String} {ts : List Term} (h : read text = .ok ts) :
    ∀ t ∈ ts, t.isNeutral = false := by
  unfold read at h
  split at h
  · cases h
  · split at h
    · cases h
    · split at h
      · cases h
        intro t ht
        simpa using (List.mem_filter.1 ht).2
      · cases h

end Terms

end UnitAlgebra
