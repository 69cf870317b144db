import UnitAlgebra.Terms.Canonical
import UnitAlgebra.Terms.Order
import UnitAlgebra.Terms.Text

/-!
# Expressions

An expression is a product of powers in canonical form. Every operation ends in `ofTerms`, which
brings a list of terms into that form. The order of the terms is part of the value and of its text,
but not of its content: `==` compares the terms in their sorted order.
-/

namespace UnitAlgebra

/-- A product of powers, as its list of terms. -/
structure Expression where
  /-- The terms in the order of the text. -/
  terms : List Term

namespace Expression

/-- The product of any terms. -/
def ofTerms (ts : List Term) : Expression :=
  ⟨Terms.reduce ts⟩

/-- The empty product. -/
def one : Expression :=
  ⟨[]⟩

/-- The product of two expressions. -/
def mul (a b : Expression) : Expression :=
  ofTerms (a.terms ++ b.terms)

/-- The ratio of two expressions. -/
def div (a b : Expression) : Expression :=
  ofTerms (a.terms ++ b.terms.map Term.inverse)

instance : Mul Expression := ⟨mul⟩

instance : Div Expression := ⟨div⟩

/-- The reciprocal of an expression. -/
def inverse (a : Expression) : Expression :=
  ofTerms (a.terms.map Term.inverse)

/-- An expression raised to a rational power. -/
def pow (a : Expression) (n : Rat) : Expression :=
  if n = 0 then one else ofTerms (a.terms.map fun t => t.pow n)

/-- The empty product has no term. -/
def isOne (a : Expression) : Bool :=
  a.terms.isEmpty

/-- A base occurs in an expression. -/
def contains (a : Expression) (base : String) : Bool :=
  a.terms.any fun t => t.base == base

/-- The exponent of a base, if the base occurs. -/
def exponentOf? (a : Expression) (base : String) : Option Rat :=
  (a.terms.find? fun t => t.base == base).map Term.exponent

/-- The text of an expression. -/
def render (a : Expression) : String :=
  Terms.render a.terms

/-- The terms of an expression in an order that depends on nothing but the terms. -/
def content (a : Expression) : List Term :=
  Terms.sorted a.terms

/-- Two expressions are equal when they have the same content. -/
instance : BEq Expression := ⟨fun a b => decide (a.content = b.content)⟩

/-- For each expression of a list the index of the first one that is equal to it. -/
def firstEquals (xs : List Expression) : List Nat :=
  xs.map fun a => xs.findIdx fun b => b == a

/-- Equality is equality of contents. -/
theorem beq_iff_content {a b : Expression} : (a == b) = true ↔ a.content = b.content :=
  decide_eq_true_iff

/-- The terms of a product. -/
theorem terms_mul (a b : Expression) : (a * b).terms = Terms.reduce (a.terms ++ b.terms) :=
  rfl

/-- The terms of a ratio. -/
theorem terms_div (a b : Expression) :
    (a / b).terms = Terms.reduce (a.terms ++ b.terms.map Term.inverse) :=
  rfl

/-- The power with exponent zero is the empty product. -/
theorem pow_zero (a : Expression) : a.pow 0 = one :=
  if_pos rfl

/-- The power with any other exponent multiplies the exponents of the terms. -/
theorem pow_of_ne_zero (a : Expression) {n : Rat} (h : n ≠ 0) :
    a.pow n = ofTerms (a.terms.map fun t => t.pow n) :=
  if_neg h

end Expression

end UnitAlgebra
