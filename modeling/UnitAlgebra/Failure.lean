import UnitAlgebra.Numeral.Binary64

/-!
# Failures

Why a computation has no result. A failure is about a number where terms were wanted, about the
content of an operand (`ContentFault`), about a text outside the grammar (`ReadingFault`, with the
fragment of the text at fault), or about the right operand of a product or ratio, with the failure
that this operand has by itself. `Failure.message` is the only place that words them.
-/

namespace UnitAlgebra

/-- The shapes in which an operand may come. -/
inductive Shape
  /-- A text in the notation of products. -/
  | text
  /-- A reduced product. -/
  | expression
  /-- One term. -/
  | term
  /-- A list of terms. -/
  | terms
  /-- A base with a scalar for its exponent. -/
  | pair
  /-- A list of operands. -/
  | list
  /-- A bare scalar. -/
  | number
deriving DecidableEq

/-- The name of a shape. -/
def Shape.name : Shape → String
  | .text => "texte"
  | .expression => "expression"
  | .term => "terme"
  | .terms => "liste de termes"
  | .pair => "paire (base, exposant)"
  | .list => "liste"
  | .number => "nombre"

/-- What is wrong with the content of an operand of an accepted shape. -/
inductive ContentFault
  /-- A base has no character. -/
  | emptyBase
  /-- A base has a blank or reserved character. -/
  | forbidden (c : Char) (base : String)
  /-- A binary floating-point exponent is infinite or no number. -/
  | notFinite (x : Binary64)
  /-- The text of an exponent is no fraction. -/
  | notNumeric (text : String)
  /-- An item of a list is neither a term nor a pair. -/
  | notTerm (shape : Shape) (rendered : String)
  /-- An operand with a number of terms other than one stands for a single term. -/
  | notSingle (rendered : String) (count : Nat)
  /-- An exponent is a product without a numeric value. -/
  | symbolicExponent (rendered : String)
deriving DecidableEq

/-- The wording of a content fault. -/
def ContentFault.message : ContentFault → String
  | .emptyBase => "base vide"
  | .forbidden c base =>
    "caractère '" ++ String.singleton c ++ "' interdit dans la base '" ++ base ++ "'"
  | .notFinite x => "exposant flottant non fini: " ++ x.render
  | .notNumeric text => "exposant non numérique: '" ++ text ++ "'"
  | .notTerm shape rendered =>
    "élément non convertible en (base, exposant): " ++ shape.name ++ " '" ++ rendered ++ "'"
  | .notSingle rendered count =>
    "'" ++ rendered ++ "' n’est pas un terme unique (" ++ String.ofList (Nat.toDigits 10 count) ++
      " termes)"
  | .symbolicExponent rendered =>
    "exposant symbolique '" ++ rendered ++ "' non réductible à un nombre"

/-- How a text leaves the grammar of products. -/
inductive ReadingFault
  /-- The text has blanks only. -/
  | blank
  /-- A parenthesis stands outside an exponent. -/
  | strayParenthesis
  /-- The text ends after a caret. -/
  | caretAtEnd
  /-- The parenthesis that opens an exponent is not closed. -/
  | unclosedParenthesis
  /-- The exponent is no fraction. -/
  | malformedExponent
  /-- A character that belongs to no exponent stands in the place of one or touches its end. -/
  | notNumeric
  /-- The denominator of an exponent is zero. -/
  | zeroDenominator
  /-- The text starts with an operator other than a slash. -/
  | leadingOperator
  /-- Two operators stand side by side. -/
  | missingFactor
  /-- An exponent stands where a factor is due. -/
  | missingBase
  /-- No exponent follows a caret. -/
  | missingExponent
  /-- The text ends after an operator. -/
  | trailingOperator
  /-- A factor has a second exponent. -/
  | repeatedExponent
  /-- Two factors stand side by side. -/
  | missingOperator
deriving DecidableEq

/-- The wording of a reading fault. -/
def ReadingFault.message : ReadingFault → String
  | .blank => "expression vide"
  | .strayParenthesis => "parenthèse inattendue (seul un exposant peut être parenthésé)"
  | .caretAtEnd => "exposant manquant après '^'"
  | .unclosedParenthesis => "parenthèse non fermée"
  | .malformedExponent => "exposant invalide"
  | .notNumeric => "exposant non numérique"
  | .zeroDenominator => "division par zéro dans un exposant"
  | .leadingOperator => "opérateur en tête"
  | .missingFactor => "facteur vide entre deux opérateurs"
  | .missingBase => "exposant sans base"
  | .missingExponent => "exposant manquant"
  | .trailingOperator => "opérateur en fin d’expression"
  | .repeatedExponent => "exposant en double"
  | .missingOperator => "opérateur manquant entre deux facteurs"

/-- Why a computation has no result. -/
inductive Failure
  /-- A bare number stands where terms are wanted. -/
  | number (rendered : String)
  /-- The content of an operand is at fault. -/
  | content (fault : ContentFault)
  /-- A fragment of a text is at fault. -/
  | reading (fragment : String) (fault : ReadingFault)
  /-- The right operand of a product, or an exponent, has a failure of its own. -/
  | product (operand : String) (source : Failure)
  /-- The right operand of a ratio has a failure of its own. -/
  | ratio (operand : String) (source : Failure)
deriving DecidableEq

namespace Failure

/-- The wording of a failure. -/
def message : Failure → String
  | .number rendered => "type d’opérande non supporté: nombre (" ++ rendered ++ ")"
  | .content fault => "valeur d’opérande invalide: " ++ fault.message
  | .reading fragment fault => "lecture impossible de '" ++ fragment ++ "': " ++ fault.message
  | .product operand _ => "produit impossible avec '" ++ operand ++ "'"
  | .ratio operand _ => "rapport impossible avec '" ++ operand ++ "'"

/-- The failure lies in the shape or the content of an operand. -/
def isOperand : Failure → Bool
  | .number _ | .content _ => true
  | _ => false

/-- The failure lies in the reading of a text. -/
def isReading : Failure → Bool
  | .reading .. => true
  | _ => false

/-- The failure lies in the use of an operand in a product or ratio. -/
def isAlgebraic : Failure → Bool
  | .product .. | .ratio .. => true
  | _ => false

/-- The failure that an algebraic one wraps. -/
def source? : Failure → Option Failure
  | .product _ source | .ratio _ source => some source
  | _ => none

/-- A reading failure has a fragment of a text and a fault. -/
theorem isReading_iff {f : Failure} :
    f.isReading = true ↔ ∃ fragment fault, f = .reading fragment fault := by
  cases f <;> simp [isReading]

end Failure

/-- A mapped computation succeeds exactly when the computation does. -/
theorem map_eq_ok_iff {ε α β : Type} {f : α → β} {x : Except ε α} {b : β} :
    x.map f = .ok b ↔ ∃ a, x = .ok a ∧ f a = b := by
  cases x with
  | error e => simp [Except.map]
  | ok a => simp [Except.map]

/-- A mapped computation fails as the computation does. -/
theorem map_eq_error_iff {ε α β : Type} {f : α → β} {x : Except ε α} {e : ε} :
    x.map f = .error e ↔ x = .error e := by
  cases x <;> simp [Except.map]

/-- A chained computation succeeds exactly when both parts do. -/
theorem bind_eq_ok_iff {ε α β : Type} {f : α → Except ε β} {x : Except ε α} {b : β} :
    x >>= f = .ok b ↔ ∃ a, x = .ok a ∧ f a = .ok b := by
  cases x with
  | error e => simp [bind, Except.bind]
  | ok a => simp [bind, Except.bind]

/-- What a computation gives over a list comes from the elements of the list. -/
theorem exists_of_mapM_eq_ok {ε α β : Type} {f : α → Except ε β} {xs : List α} {ys : List β}
    (h : xs.mapM f = .ok ys) : ∀ y ∈ ys, ∃ x ∈ xs, f x = .ok y := by
  induction xs generalizing ys with
  | nil =>
    cases h
    simp
  | cons x xs ih =>
    rw [List.mapM_cons] at h
    obtain ⟨y, hy, h⟩ := bind_eq_ok_iff.1 h
    obtain ⟨more, hmore, h⟩ := bind_eq_ok_iff.1 h
    cases h
    rw [List.forall_mem_cons]
    refine ⟨⟨x, by simp, hy⟩, fun z hz => ?_⟩
    obtain ⟨w, hw, hz⟩ := ih hmore z hz
    exact ⟨w, List.mem_cons_of_mem x hw, hz⟩

end UnitAlgebra
