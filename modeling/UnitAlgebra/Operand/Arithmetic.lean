import UnitAlgebra.Expression.Number
import UnitAlgebra.Operand.Conversion

/-!
# Arithmetic of operands

Products, ratios, powers and the comparison of two operands. The left operand fails with its own
failure. A right operand that does not convert makes the product or the ratio fail, with the failure
of the operand as the source. An exponent is a number, or anything that converts to an expression
with a numeric value.
-/

namespace UnitAlgebra

namespace Expression

/-- The product of an expression and an operand. -/
def multipliedBy (a : Expression) (x : Operand) : Except Failure Expression :=
  match x.toExpression with
  | .ok b => .ok (a * b)
  | .error f => .error (.product x.render f)

/-- The ratio of an expression and an operand. -/
def dividedBy (a : Expression) (x : Operand) : Except Failure Expression :=
  match x.toExpression with
  | .ok b => .ok (a / b)
  | .error f => .error (.ratio x.render f)

/-- The value of an operand in the place of an exponent. Only a bare number fails with its own
failure. -/
def exponentValue : Operand → Except Failure Rat
  | .number n => n.value
  | x =>
    match x.toExpression with
    | .error f => .error (.product x.render f)
    | .ok e =>
      match e.number? with
      | some n => .ok n
      | none => .error (.product x.render (.content (.symbolicExponent e.render)))

/-- An expression raised to the value of an operand. -/
def raisedTo (a : Expression) (x : Operand) : Except Failure Expression :=
  (exponentValue x).map a.pow

/-- The product with an operand that converts is the product of the expressions. -/
theorem multipliedBy_eq_ok_iff {a e : Expression} {x : Operand} :
    a.multipliedBy x = .ok e ↔ ∃ b, x.toExpression = .ok b ∧ a * b = e := by
  unfold multipliedBy
  cases x.toExpression <;> simp

/-- The ratio with an operand that converts is the ratio of the expressions. -/
theorem dividedBy_eq_ok_iff {a e : Expression} {x : Operand} :
    a.dividedBy x = .ok e ↔ ∃ b, x.toExpression = .ok b ∧ a / b = e := by
  unfold dividedBy
  cases x.toExpression <;> simp

/-- An exponent that is no bare number is converted to an expression. -/
theorem exponentValue_of_ne_number {x : Operand} (hx : ∀ y, x ≠ .number y) :
    exponentValue x =
      match x.toExpression with
      | .error f => .error (.product x.render f)
      | .ok e =>
        match e.number? with
        | some n => .ok n
        | none => .error (.product x.render (.content (.symbolicExponent e.render))) := by
  cases x with
  | number y => exact absurd rfl (hx y)
  | _ => rfl

/-- An exponent that is no bare number has the numeric value of its expression. -/
theorem exponentValue_eq_ok_iff {x : Operand} (hx : ∀ y, x ≠ .number y) {n : Rat} :
    exponentValue x = .ok n ↔ ∃ e, x.toExpression = .ok e ∧ e.number? = some n := by
  rw [exponentValue_of_ne_number hx]
  cases x.toExpression with
  | error f => simp
  | ok e => cases hnumber : e.number? <;> simp [hnumber]

/-- The power with an operand that has a value is the power with this value. -/
theorem raisedTo_eq_ok_iff {a e : Expression} {x : Operand} :
    a.raisedTo x = .ok e ↔ ∃ n, exponentValue x = .ok n ∧ a.pow n = e :=
  map_eq_ok_iff

end Expression

namespace Operand

/-- The product of two operands. -/
def product (x y : Operand) : Except Failure Expression := do
  let a ← x.toExpression
  a.multipliedBy y

/-- The ratio of two operands. -/
def ratio (x y : Operand) : Except Failure Expression := do
  let a ← x.toExpression
  a.dividedBy y

/-- The first operand raised to the second. -/
def power (x y : Operand) : Except Failure Expression := do
  let a ← x.toExpression
  a.raisedTo y

/-- An operand that converts is raised to any exponent with a value. -/
theorem power_eq_ok {x y : Operand} {a : Expression} {n : Rat} (hx : x.toExpression = .ok a)
    (hy : Expression.exponentValue y = .ok n) : x.power y = .ok (a.pow n) := by
  have hraise : a.raisedTo y = .ok (a.pow n) := Expression.raisedTo_eq_ok_iff.2 ⟨n, hy, rfl⟩
  rw [power, hx]
  exact hraise

/-- Two operands stand for equal expressions. -/
def equality (x y : Operand) : Except Failure Bool := do
  let a ← x.toExpression
  let b ← y.toExpression
  return a == b

end Operand

end UnitAlgebra
