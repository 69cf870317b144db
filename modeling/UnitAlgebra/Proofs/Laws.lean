import Mathlib.Algebra.GroupWithZero.Action.Units
import Mathlib.Algebra.Module.Pi
import UnitAlgebra.Proofs.Content
import UnitAlgebra.Proofs.Number
import UnitAlgebra.Proofs.Obtainable

/-!
# The laws of products and powers

Canonical expressions are equal exactly when they have the same exponents (`beq_of_exponents_eq`,
`exponents_congr`), so a law of `==` is a law of functions into the rationals, whatever order of
terms its two sides have: products are commutative and associative, and powers are the multiples of
a rational vector space. Equal expressions are the same up to the order of their terms
(`beq_iff_perm`), so no operation tells them apart but those that show the order.
`laws_of_obtainable` puts the laws together for the expressions that a caller can obtain.
-/

namespace UnitAlgebra.Expression

/-! ## Equality -/

/-- Expressions are equal when their terms are the same up to the order. -/
theorem beq_iff_perm {a b : Expression} : (a == b) = true ↔ a.terms.Perm b.terms :=
  beq_iff_content.trans Terms.sorted_eq_sorted_iff

instance : EquivBEq Expression where
  rfl := beq_iff_perm.2 (.refl _)
  symm h := beq_iff_perm.2 (beq_iff_perm.1 h).symm
  trans hab hbc := beq_iff_perm.2 ((beq_iff_perm.1 hab).trans (beq_iff_perm.1 hbc))

/-- Equal expressions have the same exponents. -/
theorem exponents_congr {a b : Expression} (h : a == b) : a.exponents = b.exponents := by
  funext base
  rw [exponents, exponents, Terms.total_perm (beq_iff_perm.1 h)]

/-- Canonical expressions with the same exponents are equal. -/
theorem beq_of_exponents_eq {a b : Expression} (ha : Terms.IsCanonical a.terms)
    (hb : Terms.IsCanonical b.terms) (h : a.exponents = b.exponents) : a == b := by
  rw [beq_iff_content, content_eq_iff ha hb]
  intro base hbase
  have hexponent := congrFun h base
  rwa [exponents, exponents, if_neg hbase, if_neg hbase] at hexponent

/-! ## Products -/

/-- The empty product is canonical. -/
theorem isCanonical_one : Terms.IsCanonical one.terms :=
  Terms.isCanonical_nil

/-- Products are commutative. -/
theorem mul_comm_beq (a b : Expression) : a * b == b * a := by
  apply beq_of_exponents_eq (isCanonical_mul a b) (isCanonical_mul b a)
  rw [exponents_mul, exponents_mul, add_comm]

/-- Products are associative. -/
theorem mul_assoc_beq (a b c : Expression) : (a * b) * c == a * (b * c) := by
  apply beq_of_exponents_eq (isCanonical_mul _ c) (isCanonical_mul a _)
  rw [exponents_mul, exponents_mul, exponents_mul, exponents_mul, add_assoc]

/-- The empty product is neutral. -/
theorem mul_one_beq {a : Expression} (ha : Terms.IsCanonical a.terms) : a * one == a := by
  apply beq_of_exponents_eq (isCanonical_mul a one) ha
  rw [exponents_mul, exponents_one, add_zero]

/-- The ratio of an expression to itself is the empty product. -/
theorem div_self_beq (a : Expression) : a / a == one := by
  apply beq_of_exponents_eq (isCanonical_div a a) isCanonical_one
  rw [exponents_div, exponents_one, sub_self]

/-- The product of an expression and its reciprocal is the empty product. -/
theorem mul_inverse_beq (a : Expression) : a * a.inverse == one := by
  apply beq_of_exponents_eq (isCanonical_mul a _) isCanonical_one
  rw [exponents_mul, exponents_inverse, exponents_one, add_neg_cancel]

/-! ## Powers -/

/-- The power of a product is the product of the powers. -/
theorem mul_pow_beq (a b : Expression) (p : Rat) : (a * b).pow p == a.pow p * b.pow p := by
  apply beq_of_exponents_eq (isCanonical_pow _ p) (isCanonical_mul _ _)
  rw [exponents_pow, exponents_mul, exponents_mul, exponents_pow, exponents_pow, smul_add]

/-- The power with a sum is the product of the powers. -/
theorem pow_add_beq (a : Expression) (p q : Rat) : a.pow (p + q) == a.pow p * a.pow q := by
  apply beq_of_exponents_eq (isCanonical_pow a _) (isCanonical_mul _ _)
  rw [exponents_pow, exponents_mul, exponents_pow, exponents_pow, add_smul]

/-- The power of a power is the power with the product. -/
theorem pow_pow_beq (a : Expression) (p q : Rat) : (a.pow p).pow q == a.pow (p * q) := by
  apply beq_of_exponents_eq (isCanonical_pow _ q) (isCanonical_pow a _)
  rw [exponents_pow, exponents_pow, exponents_pow, smul_smul, mul_comm]

/-- The power with exponent one is the expression itself. -/
theorem pow_one_beq {a : Expression} (ha : Terms.IsCanonical a.terms) : a.pow 1 == a := by
  apply beq_of_exponents_eq (isCanonical_pow a 1) ha
  rw [exponents_pow, one_smul]

/-- The power with exponent zero is the empty product. -/
theorem pow_zero_beq (a : Expression) : a.pow 0 == one := by
  rw [pow_zero]
  exact BEq.rfl

/-- An exponent that is not zero takes different expressions to different powers. -/
theorem beq_of_pow_beq {a b : Expression} (ha : Terms.IsCanonical a.terms)
    (hb : Terms.IsCanonical b.terms) {p : Rat} (hp : p ≠ 0) (h : a.pow p == b.pow p) : a == b := by
  apply beq_of_exponents_eq ha hb
  have hpow := exponents_congr h
  rw [exponents_pow, exponents_pow] at hpow
  calc a.exponents = p⁻¹ • p • a.exponents := (inv_smul_smul₀ hp a.exponents).symm
    _ = p⁻¹ • p • b.exponents := by rw [hpow]
    _ = b.exponents := inv_smul_smul₀ hp b.exponents

/-! ## Congruence -/

/-- Products of equal expressions are equal. -/
theorem mul_congr {a a' b b' : Expression} (ha : a == a') (hb : b == b') :
    a * b == a' * b' := by
  apply beq_of_exponents_eq (isCanonical_mul a b) (isCanonical_mul a' b')
  rw [exponents_mul, exponents_mul, exponents_congr ha, exponents_congr hb]

/-- Ratios of equal expressions are equal. -/
theorem div_congr {a a' b b' : Expression} (ha : a == a') (hb : b == b') :
    a / b == a' / b' := by
  apply beq_of_exponents_eq (isCanonical_div a b) (isCanonical_div a' b')
  rw [exponents_div, exponents_div, exponents_congr ha, exponents_congr hb]

/-- Reciprocals of equal expressions are equal. -/
theorem inverse_congr {a a' : Expression} (h : a == a') : a.inverse == a'.inverse := by
  apply beq_of_exponents_eq (isCanonical_inverse a) (isCanonical_inverse a')
  rw [exponents_inverse, exponents_inverse, exponents_congr h]

/-- Powers of equal expressions are equal. -/
theorem pow_congr {a a' : Expression} (h : a == a') (n : Rat) : a.pow n == a'.pow n := by
  apply beq_of_exponents_eq (isCanonical_pow a n) (isCanonical_pow a' n)
  rw [exponents_pow, exponents_pow, exponents_congr h]

/-- Equal canonical expressions report the same exponents. -/
theorem exponentOf?_congr {a a' : Expression} (ha : Terms.IsCanonical a.terms)
    (ha' : Terms.IsCanonical a'.terms) (h : a == a') (base : String) :
    a.exponentOf? base = a'.exponentOf? base := by
  rw [exponentOf?_eq ha, exponentOf?_eq ha', Terms.total_perm (beq_iff_perm.1 h)]

/-- Equal expressions have equally many terms. -/
theorem length_congr {a a' : Expression} (h : a == a') : a.terms.length = a'.terms.length :=
  (beq_iff_perm.1 h).length_eq

/-- Equal expressions have the same numeric value. -/
theorem number?_congr {a a' : Expression} (h : a == a') : a.number? = a'.number? :=
  Terms.number?_perm (beq_iff_perm.1 h)

end UnitAlgebra.Expression

namespace UnitAlgebra

open Expression

/-- The expressions that a caller can obtain are a commutative group with rational powers, up to
`==`, and nothing but the order of terms tells equal ones apart. -/
theorem laws_of_obtainable :
    (∀ a b c : Expression, Obtainable (.expression a) → Obtainable (.expression b) →
      Obtainable (.expression c) → ∀ p q : Rat,
        a * b == b * a ∧ (a * b) * c == a * (b * c) ∧ a * one == a ∧
        a / a == one ∧ one == a * a.inverse ∧
        (a * b).pow p == a.pow p * b.pow p ∧ a.pow (p + q) == a.pow p * a.pow q ∧
        (a.pow p).pow q == a.pow (p * q) ∧ a.pow 1 == a ∧ a.pow 0 == one ∧
        (p ≠ 0 → a.pow p == b.pow p → a == b)) ∧
    (Equivalence fun a b : Expression => (a == b) = true) ∧
    ∀ a a' b b' : Expression, Obtainable (.expression a) → Obtainable (.expression a') →
      Obtainable (.expression b) → Obtainable (.expression b') → a == a' → b == b' →
      ∀ (n : Rat) (base : String),
        a * b == a' * b' ∧ a / b == a' / b' ∧ a.inverse == a'.inverse ∧ a.pow n == a'.pow n ∧
        a.exponentOf? base = a'.exponentOf? base ∧ a.contains base = a'.contains base ∧
        a.terms.length = a'.terms.length ∧ a.number? = a'.number? := by
  refine ⟨?_, ⟨fun _ => BEq.rfl, BEq.symm, BEq.trans⟩, ?_⟩
  · intro a b c ha hb hc p q
    have hacanonical : Terms.IsCanonical a.terms := ha.isSound.isCanonical
    have hbcanonical : Terms.IsCanonical b.terms := hb.isSound.isCanonical
    exact ⟨mul_comm_beq a b, mul_assoc_beq a b c, mul_one_beq hacanonical, div_self_beq a,
      BEq.symm (mul_inverse_beq a), mul_pow_beq a b p, pow_add_beq a p q, pow_pow_beq a p q,
      pow_one_beq hacanonical, pow_zero_beq a, beq_of_pow_beq hacanonical hbcanonical⟩
  · intro a a' b b' ha ha' _ _ haa' hbb' n base
    have hexponent := exponentOf?_congr ha.isSound.isCanonical ha'.isSound.isCanonical haa' base
    have hcontains : a.contains base = a'.contains base := by
      rw [contains_eq_isSome, contains_eq_isSome, hexponent]
    exact ⟨mul_congr haa' hbb', div_congr haa' hbb', inverse_congr haa', pow_congr haa' n,
      hexponent, hcontains, length_congr haa', number?_congr haa'⟩

/-- A torque in two orders of its terms: the roots are equal, so the torques are, and so are the
ratios to an angle. -/
theorem laws_of_obtainable_torque :
    (ofTerms [⟨"N", 1⟩, ⟨"m", 1⟩]).pow (1/2) == (ofTerms [⟨"m", 1⟩, ⟨"N", 1⟩]).pow (1/2) ∧
    ofTerms [⟨"N", 1⟩, ⟨"m", 1⟩] == ofTerms [⟨"m", 1⟩, ⟨"N", 1⟩] ∧
    ofTerms [⟨"N", 1⟩, ⟨"m", 1⟩] / ofTerms [⟨"rad", 1⟩] ==
      ofTerms [⟨"m", 1⟩, ⟨"N", 1⟩] / ofTerms [⟨"rad", 1⟩] ∧
    (ofTerms [⟨"N", 1⟩, ⟨"m", 1⟩]).exponentOf? "m" =
      (ofTerms [⟨"m", 1⟩, ⟨"N", 1⟩]).exponentOf? "m" := by
  have ha : Obtainable (.expression (ofTerms [⟨"N", 1⟩, ⟨"m", 1⟩])) := .ofTerms (by decide)
  have ha' : Obtainable (.expression (ofTerms [⟨"m", 1⟩, ⟨"N", 1⟩])) := .ofTerms (by decide)
  have hb : Obtainable (.expression (ofTerms [⟨"rad", 1⟩])) := .ofTerms (by decide)
  have hbeq : ofTerms [⟨"N", 1⟩, ⟨"m", 1⟩] == ofTerms [⟨"m", 1⟩, ⟨"N", 1⟩] :=
    beq_iff_perm.2 (by decide +kernel)
  have hhalf : (1/2 : Rat) ≠ 0 := by decide +kernel
  obtain ⟨hlaws, -, hcongr⟩ := laws_of_obtainable
  obtain ⟨-, hdiv, -, hpow, hexponent, -⟩ :=
    hcongr _ _ _ _ ha ha' hb hb hbeq BEq.rfl (1/2) "m"
  obtain ⟨-, -, -, -, -, -, -, -, -, -, hinjective⟩ := hlaws _ _ _ ha ha' hb (1/2) 1
  exact ⟨hpow, hinjective hhalf hpow, hdiv, hexponent⟩

end UnitAlgebra
