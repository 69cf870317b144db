import UnitAlgebra.Operand.Basic

/-!
# Conversion of operands

`toTerms` is the one way from an operand to checked terms, in their order and not reduced. An
operand is an expression when it has terms, and a single term when it has exactly one. `standard`
writes the terms in the standard notation and changes nothing else about them.
-/

namespace UnitAlgebra.Operand

/-- The term of a base and an exponent; the exponent is converted before the base is checked. -/
def pairTerm (base : String) (exponent : Scalar) : Except Failure Term := do
  let r ← exponent.value
  Term.ofBase base r

/-- The term of an item of a list, which is a term or a pair. -/
def itemTerm : Operand → Except Failure Term
  | .term t => .ok t
  | .pair base exponent => pairTerm base exponent
  | x => .error (.content (.notTerm x.shape x.render))

/-- The terms of an operand, in their order and not reduced. The first item of a list that is at
fault fails. -/
def toTerms : Operand → Except Failure (List Term)
  | .text s => Terms.read s
  | .expression e => .ok e.terms
  | .term t => .ok [t]
  | .terms ts => .ok ts
  | .pair base exponent => (pairTerm base exponent).map fun t => [t]
  | .list items => items.mapM itemTerm
  | .number x => .error (.number x.render)

/-- The expression that an operand stands for. -/
def toExpression : Operand → Except Failure Expression
  | .expression e => .ok e
  | x => x.toTerms.map Expression.ofTerms

/-- The only term of a list, which belongs to an operand with this text. -/
def single (rendered : String) : List Term → Except Failure Term
  | [t] => .ok t
  | ts => .error (.content (.notSingle rendered ts.length))

/-- The single term that an operand stands for. A term, a pair and the item of a list of one have
their term at hand; of any other operand the terms are counted, before they are reduced. -/
def toTerm (x : Operand) : Except Failure Term :=
  match x with
  | .term t => .ok t
  | .pair base exponent => pairTerm base exponent
  | .list [item] => do
    let t ← itemTerm item
    single x.render [t]
  | _ => do
    let ts ← x.toTerms
    single x.render ts

/-- The terms of an operand in the standard notation. -/
def standard (x : Operand) : Except Failure String :=
  x.toTerms.map Terms.render

/-- A text that is read as an expression gives the product of its terms. -/
theorem toExpression_text (s : String) :
    toExpression (.text s) = (Terms.read s).map Expression.ofTerms :=
  rfl

/-- A text whose terms are read has their canonical form for its expression. -/
theorem toExpression_text_of_read {s : String} {ts : List Term} (h : Terms.read s = .ok ts) :
    toExpression (.text s) = .ok ⟨Terms.reduce ts⟩ := by
  rw [toExpression_text, h]
  rfl

/-- An operand other than an expression gives the product of its terms. -/
theorem toExpression_eq_map {x : Operand} (h : ∀ e, x ≠ .expression e) :
    x.toExpression = x.toTerms.map Expression.ofTerms := by
  cases x with
  | expression e => exact absurd rfl (h e)
  | text s => rfl
  | term t => rfl
  | terms ts => rfl
  | pair base exponent => rfl
  | list items => rfl
  | number n => rfl

/-- An operand fails to convert exactly as it fails to have terms. -/
theorem toExpression_eq_error_iff_toTerms {x : Operand} {f : Failure} :
    x.toExpression = .error f ↔ x.toTerms = .error f := by
  cases x with
  | expression e => simp [toExpression, toTerms]
  | _ => rw [toExpression_eq_map (by simp), map_eq_error_iff]

/-- The only term of a list is there exactly when the list has one term. -/
theorem single_eq_ok_iff {rendered : String} {ts : List Term} {t : Term} :
    single rendered ts = .ok t ↔ ts = [t] := by
  cases ts with
  | nil => simp [single]
  | cons u us => cases us <;> simp [single]

/-- A list has no only term exactly when it has a number of terms other than one. -/
theorem single_eq_error_iff {rendered : String} {ts : List Term} {f : Failure} :
    single rendered ts = .error f ↔
      ts.length ≠ 1 ∧ f = .content (.notSingle rendered ts.length) := by
  cases ts with
  | nil => simp [single, eq_comm]
  | cons u us => cases us <;> simp [single, eq_comm]

/-- The operands that have their term at hand make no difference: the single term of any operand is
the only one of its terms. -/
theorem toTerm_eq_bind (x : Operand) : x.toTerm = x.toTerms >>= single x.render := by
  cases x with
  | pair base exponent =>
    rw [toTerm, toTerms]
    cases pairTerm base exponent <;> rfl
  | list items =>
    match items with
    | [] => rfl
    | [item] =>
      rw [toTerm, toTerms, List.mapM_cons, List.mapM_nil]
      cases itemTerm item <;> rfl
    | _ :: _ :: _ => rfl
  | _ => rfl

/-- An operand stands for a single term exactly when this is the only one of its terms. -/
theorem toTerm_eq_ok_iff {x : Operand} {t : Term} : x.toTerm = .ok t ↔ x.toTerms = .ok [t] := by
  rw [toTerm_eq_bind, bind_eq_ok_iff]
  simp only [single_eq_ok_iff, exists_eq_right]

end UnitAlgebra.Operand
