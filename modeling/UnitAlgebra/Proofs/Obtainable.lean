import UnitAlgebra.Operand.Arithmetic
import UnitAlgebra.Proofs.Canonical
import UnitAlgebra.Proofs.Reading

/-!
# The values that a caller can obtain

Terms, expressions and operands are made from each other: a text is read as terms, an operand
converts to an expression, and an expression is an operand again. `Obtainable` closes the three
under everything that a caller may do with them. `Value.IsSound` is the invariant of that closure: a
term has a valid base, an expression is canonical and has valid bases, and an operand gives only
terms with valid bases. Every operation keeps it (`Obtainable.isSound`), although the reader makes
terms without a check and an expression passes through a conversion as it is.
-/

namespace UnitAlgebra

/-- What a caller can hold. -/
inductive Value
  /-- A term. -/
  | term (t : Term)
  /-- An expression. -/
  | expression (e : Expression)
  /-- An operand. -/
  | operand (x : Operand)

/-- The values that a caller can obtain, by any finite composition of the operations. -/
inductive Obtainable : Value → Prop
  /-- A term of a checked base. -/
  | ofBase {base : String} {exponent : Rat} {t : Term} :
    Term.ofBase base exponent = .ok t → Obtainable (.term t)
  /-- A term with another exponent. -/
  | withExponent {t : Term} (exponent : Rat) :
    Obtainable (.term t) → Obtainable (.term (t.withExponent exponent))
  /-- The reciprocal of a term. -/
  | inverseTerm {t : Term} : Obtainable (.term t) → Obtainable (.term t.inverse)
  /-- A power of a term. -/
  | powTerm {t : Term} (n : Rat) : Obtainable (.term t) → Obtainable (.term (t.pow n))
  /-- A term of a text. -/
  | read {text : String} {ts : List Term} {t : Term} :
    Terms.read text = .ok ts → t ∈ ts → Obtainable (.term t)
  /-- A term of a canonical form. -/
  | reduce {ts : List Term} {t : Term} :
    (∀ u ∈ ts, Obtainable (.term u)) → t ∈ Terms.reduce ts → Obtainable (.term t)
  /-- A term of an expression. -/
  | termOf {e : Expression} {t : Term} :
    Obtainable (.expression e) → t ∈ e.terms → Obtainable (.term t)
  /-- The single term of an operand. -/
  | toTerm {x : Operand} {t : Term} :
    Obtainable (.operand x) → x.toTerm = .ok t → Obtainable (.term t)
  /-- The empty product. -/
  | one : Obtainable (.expression .one)
  /-- The expression of an operand; a text is such an operand. -/
  | toExpression {x : Operand} {e : Expression} :
    Obtainable (.operand x) → x.toExpression = .ok e → Obtainable (.expression e)
  /-- The expression of a term. -/
  | ofTerm {t : Term} : Obtainable (.term t) → Obtainable (.expression (.ofTerms [t]))
  /-- A product of expressions. -/
  | mul {a b : Expression} :
    Obtainable (.expression a) → Obtainable (.expression b) → Obtainable (.expression (a * b))
  /-- A ratio of expressions. -/
  | div {a b : Expression} :
    Obtainable (.expression a) → Obtainable (.expression b) → Obtainable (.expression (a / b))
  /-- The reciprocal of an expression. -/
  | inverse {a : Expression} : Obtainable (.expression a) → Obtainable (.expression a.inverse)
  /-- A power of an expression. -/
  | pow {a : Expression} (n : Rat) : Obtainable (.expression a) → Obtainable (.expression (a.pow n))
  /-- The product of an expression and an operand. -/
  | multipliedBy {a e : Expression} {x : Operand} : Obtainable (.expression a) →
    Obtainable (.operand x) → a.multipliedBy x = .ok e → Obtainable (.expression e)
  /-- The ratio of an expression and an operand. -/
  | dividedBy {a e : Expression} {x : Operand} : Obtainable (.expression a) →
    Obtainable (.operand x) → a.dividedBy x = .ok e → Obtainable (.expression e)
  /-- An expression raised to an operand. -/
  | raisedTo {a e : Expression} {x : Operand} : Obtainable (.expression a) →
    Obtainable (.operand x) → a.raisedTo x = .ok e → Obtainable (.expression e)
  /-- The product of two operands. -/
  | product {x y : Operand} {e : Expression} : Obtainable (.operand x) →
    Obtainable (.operand y) → x.product y = .ok e → Obtainable (.expression e)
  /-- The ratio of two operands. -/
  | ratio {x y : Operand} {e : Expression} : Obtainable (.operand x) →
    Obtainable (.operand y) → x.ratio y = .ok e → Obtainable (.expression e)
  /-- An operand raised to an operand. -/
  | power {x y : Operand} {e : Expression} : Obtainable (.operand x) →
    Obtainable (.operand y) → x.power y = .ok e → Obtainable (.expression e)
  /-- Any text is an operand. -/
  | text (s : String) : Obtainable (.operand (.text s))
  /-- An expression is an operand. -/
  | expression {e : Expression} :
    Obtainable (.expression e) → Obtainable (.operand (.expression e))
  /-- A term is an operand. -/
  | term {t : Term} : Obtainable (.term t) → Obtainable (.operand (.term t))
  /-- A list of terms is an operand. -/
  | terms {ts : List Term} :
    (∀ t ∈ ts, Obtainable (.term t)) → Obtainable (.operand (.terms ts))
  /-- Any pair is an operand. -/
  | pair (base : String) (exponent : Scalar) : Obtainable (.operand (.pair base exponent))
  /-- A list of operands is an operand. -/
  | list {items : List Operand} :
    (∀ x ∈ items, Obtainable (.operand x)) → Obtainable (.operand (.list items))
  /-- Any number is an operand. -/
  | number (x : Scalar) : Obtainable (.operand (.number x))

/-- The product of any terms with valid bases is obtainable. -/
theorem Obtainable.ofTerms {ts : List Term} (h : ∀ t ∈ ts, ValidBase t.base) :
    Obtainable (.expression (.ofTerms ts)) := by
  have hterms : ∀ t ∈ ts, Obtainable (.term t) := fun t ht =>
    .ofBase (Term.ofBase_eq_ok (h t ht) t.exponent)
  exact .toExpression (.terms hterms) rfl

/-- An expression is sound when it is canonical and its bases are valid. -/
structure Expression.IsSound (e : Expression) : Prop where
  /-- The terms are in canonical form. -/
  isCanonical : Terms.IsCanonical e.terms
  /-- The bases are valid. -/
  validBase : ∀ t ∈ e.terms, ValidBase t.base

/-- An operand is sound when its terms have valid bases, and when it is a sound expression if it is
an expression at all. -/
structure Operand.IsSound (x : Operand) : Prop where
  /-- The terms, if there are any, have valid bases. -/
  validBase : ∀ ts, x.toTerms = .ok ts → ∀ t ∈ ts, ValidBase t.base
  /-- An expression passes through the conversion, so it has to be sound by itself. -/
  expression : ∀ e, x = .expression e → e.IsSound

/-- What every obtainable value satisfies. -/
def Value.IsSound : Value → Prop
  | .term t => ValidBase t.base
  | .expression e => e.IsSound
  | .operand x => x.IsSound

/-! ## Expressions -/

namespace Expression

/-- Terms with valid bases make a sound expression. -/
theorem isSound_ofTerms {ts : List Term} (h : ∀ t ∈ ts, ValidBase t.base) :
    (ofTerms ts).IsSound where
  isCanonical := Terms.isCanonical_reduce ts
  validBase t ht := by
    obtain ⟨u, hu, hbase⟩ := Terms.exists_base_of_mem_reduce ht
    exact hbase ▸ h u hu

/-- The empty product is sound. -/
theorem isSound_one : one.IsSound :=
  ⟨Terms.isCanonical_nil, by simp [one]⟩

/-- The product of sound expressions is sound. -/
theorem IsSound.mul {a b : Expression} (ha : a.IsSound) (hb : b.IsSound) : (a * b).IsSound :=
  isSound_ofTerms (List.forall_mem_append.2 ⟨ha.validBase, hb.validBase⟩)

/-- The ratio of sound expressions is sound. -/
theorem IsSound.div {a b : Expression} (ha : a.IsSound) (hb : b.IsSound) : (a / b).IsSound :=
  isSound_ofTerms (List.forall_mem_append.2
    ⟨ha.validBase, List.forall_mem_map.2 hb.validBase⟩)

/-- The reciprocal of a sound expression is sound. -/
theorem IsSound.inverse {a : Expression} (ha : a.IsSound) : a.inverse.IsSound :=
  isSound_ofTerms (List.forall_mem_map.2 ha.validBase)

/-- A power of a sound expression is sound. -/
theorem IsSound.pow {a : Expression} (ha : a.IsSound) (n : Rat) : (a.pow n).IsSound := by
  by_cases hn : n = 0
  · rw [hn, pow_zero]
    exact isSound_one
  · rw [pow_of_ne_zero a hn]
    exact isSound_ofTerms (List.forall_mem_map.2 ha.validBase)

end Expression

/-! ## Operands -/

namespace Operand

/-- The term of a pair has a valid base. -/
theorem validBase_of_pairTerm_eq_ok {base : String} {exponent : Scalar} {t : Term}
    (h : pairTerm base exponent = .ok t) : ValidBase t.base := by
  obtain ⟨r, -, hbase⟩ := bind_eq_ok_iff.1 h
  obtain ⟨hvalid, rfl⟩ := Term.validBase_of_ofBase_eq_ok hbase
  exact hvalid

/-- The term of a sound item has a valid base. -/
theorem IsSound.validBase_itemTerm {x : Operand} {t : Term} (hx : x.IsSound)
    (h : itemTerm x = .ok t) : ValidBase t.base := by
  cases x with
  | term u =>
    cases h
    exact hx.validBase [t] rfl t (by simp)
  | pair base exponent => exact validBase_of_pairTerm_eq_ok h
  | _ => cases h

/-- A sound operand converts to a sound expression. -/
theorem IsSound.toExpression {x : Operand} {e : Expression} (hx : x.IsSound)
    (h : x.toExpression = .ok e) : e.IsSound := by
  by_cases hexp : ∃ d, x = .expression d
  · -- an expression passes through as it is
    obtain ⟨d, rfl⟩ := hexp
    cases h
    exact hx.expression _ rfl
  · rw [toExpression_eq_map fun d hd => hexp ⟨d, hd⟩] at h
    obtain ⟨ts, hts, rfl⟩ := map_eq_ok_iff.1 h
    exact Expression.isSound_ofTerms (hx.validBase ts hts)

/-- The single term of a sound operand has a valid base. -/
theorem IsSound.validBase_toTerm {x : Operand} {t : Term} (hx : x.IsSound)
    (h : x.toTerm = .ok t) : ValidBase t.base :=
  hx.validBase [t] (toTerm_eq_ok_iff.1 h) t (by simp)

/-- An operand that is no expression is sound when its terms have valid bases. -/
theorem isSound_of_toTerms {x : Operand} (hne : ∀ e, x ≠ .expression e)
    (h : ∀ ts, x.toTerms = .ok ts → ∀ t ∈ ts, ValidBase t.base) : x.IsSound :=
  ⟨h, fun e he => absurd he (hne e)⟩

end Operand

/-! ## The invariant -/

/-- Every obtainable value is sound. -/
theorem Obtainable.isSound {v : Value} (h : Obtainable v) : v.IsSound := by
  induction h with
  -- terms: a base is checked or read, and then kept
  | ofBase hbase =>
    obtain ⟨hvalid, rfl⟩ := Term.validBase_of_ofBase_eq_ok hbase
    exact hvalid
  | withExponent _ _ ih => exact ih
  | inverseTerm _ ih => exact ih
  | powTerm _ _ ih => exact ih
  | read hread ht => exact Terms.validBase_of_mem_read hread _ ht
  | reduce _ ht ih =>
    obtain ⟨u, hu, hbase⟩ := Terms.exists_base_of_mem_reduce ht
    show ValidBase _
    exact hbase ▸ ih u hu
  | termOf _ ht ih => exact ih.validBase _ ht
  | toTerm _ hterm ih => exact ih.validBase_toTerm hterm
  -- expressions: each operation ends in a canonical form of bases at hand
  | one => exact Expression.isSound_one
  | toExpression _ he ih => exact ih.toExpression he
  | ofTerm _ ih => exact Expression.isSound_ofTerms (List.forall_mem_singleton.2 ih)
  | mul _ _ iha ihb => exact iha.mul ihb
  | div _ _ iha ihb => exact iha.div ihb
  | inverse _ ih => exact ih.inverse
  | pow n _ ih => exact ih.pow n
  | multipliedBy _ _ he iha ihx =>
    obtain ⟨b, hb, rfl⟩ := Expression.multipliedBy_eq_ok_iff.1 he
    exact iha.mul (ihx.toExpression hb)
  | dividedBy _ _ he iha ihx =>
    obtain ⟨b, hb, rfl⟩ := Expression.dividedBy_eq_ok_iff.1 he
    exact iha.div (ihx.toExpression hb)
  | raisedTo _ _ he iha _ =>
    obtain ⟨n, -, rfl⟩ := Expression.raisedTo_eq_ok_iff.1 he
    exact iha.pow n
  | product _ _ he ihx ihy =>
    obtain ⟨a, ha, he⟩ := bind_eq_ok_iff.1 he
    obtain ⟨b, hb, rfl⟩ := Expression.multipliedBy_eq_ok_iff.1 he
    exact (ihx.toExpression ha).mul (ihy.toExpression hb)
  | ratio _ _ he ihx ihy =>
    obtain ⟨a, ha, he⟩ := bind_eq_ok_iff.1 he
    obtain ⟨b, hb, rfl⟩ := Expression.dividedBy_eq_ok_iff.1 he
    exact (ihx.toExpression ha).div (ihy.toExpression hb)
  | power _ _ he ihx _ =>
    obtain ⟨a, ha, he⟩ := bind_eq_ok_iff.1 he
    obtain ⟨n, -, rfl⟩ := Expression.raisedTo_eq_ok_iff.1 he
    exact (ihx.toExpression ha).pow n
  -- operands: only their terms matter, unless they are expressions
  | text s =>
    exact Operand.isSound_of_toTerms (by simp) fun ts hts => Terms.validBase_of_mem_read hts
  | expression _ ih =>
    refine ⟨fun ts hts => ?_, fun e he => ?_⟩
    · cases hts
      exact ih.validBase
    · cases he
      exact ih
  | term _ ih =>
    refine Operand.isSound_of_toTerms (by simp) fun ts hts => ?_
    cases hts
    exact List.forall_mem_singleton.2 ih
  | terms _ ih =>
    refine Operand.isSound_of_toTerms (by simp) fun ts hts => ?_
    cases hts
    exact ih
  | pair base exponent =>
    refine Operand.isSound_of_toTerms (by simp) fun ts hts => ?_
    obtain ⟨t, ht, rfl⟩ := map_eq_ok_iff.1 hts
    exact List.forall_mem_singleton.2 (Operand.validBase_of_pairTerm_eq_ok ht)
  | list _ ih =>
    refine Operand.isSound_of_toTerms (by simp) fun ts hts t ht => ?_
    obtain ⟨x, hx, hterm⟩ := exists_of_mapM_eq_ok hts t ht
    exact (ih x hx).validBase_itemTerm hterm
  | number x =>
    refine Operand.isSound_of_toTerms (by simp) fun ts hts => ?_
    cases hts

/-- Every obtainable expression is canonical with valid bases, and every term of a text has a valid
base. -/
theorem isCanonical_of_obtainable :
    (∀ e, Obtainable (.expression e) →
      Terms.IsCanonical e.terms ∧ ∀ t ∈ e.terms, ValidBase t.base) ∧
    ∀ text ts, Terms.read text = .ok ts → ∀ t ∈ ts, ValidBase t.base := by
  refine ⟨fun e he => ?_, fun text ts => Terms.validBase_of_mem_read⟩
  obtain ⟨hcanonical, hvalid⟩ := he.isSound
  exact ⟨hcanonical, hvalid⟩

/-- The reciprocal of the expression of a text, where terms merge and change their places. -/
theorem isCanonical_of_obtainable_reciprocal :
    Obtainable (.expression ⟨[⟨"s", 2⟩, ⟨"m", -3⟩]⟩) ∧
    Terms.IsCanonical [⟨"s", 2⟩, ⟨"m", -3⟩] ∧
    Terms.read "1/s * m * m^2 / s" = .ok [⟨"s", -1⟩, ⟨"m", 1⟩, ⟨"m", 2⟩, ⟨"s", -1⟩] ∧
    ValidBase "m" ∧ ValidBase "s" := by
  have hread : Terms.read "1/s * m * m^2 / s" =
      .ok [⟨"s", -1⟩, ⟨"m", 1⟩, ⟨"m", 2⟩, ⟨"s", -1⟩] := by decide +kernel
  have hexpression : (Operand.text "1/s * m * m^2 / s").toExpression =
      .ok ⟨[⟨"m", 3⟩, ⟨"s", -2⟩]⟩ := by
    have hreduce : Terms.reduce [⟨"s", -1⟩, ⟨"m", 1⟩, ⟨"m", 2⟩, ⟨"s", -1⟩] =
        [⟨"m", 3⟩, ⟨"s", -2⟩] := by decide +kernel
    rw [Operand.toExpression_text, hread]
    exact congrArg (fun ts => Except.ok (Expression.mk ts)) hreduce
  have hinverse : Expression.inverse ⟨[⟨"m", 3⟩, ⟨"s", -2⟩]⟩ = ⟨[⟨"s", 2⟩, ⟨"m", -3⟩]⟩ := by
    have hreduce : Terms.reduce [⟨"m", -3⟩, ⟨"s", 2⟩] = [⟨"s", 2⟩, ⟨"m", -3⟩] := by decide +kernel
    exact congrArg Expression.mk hreduce
  have hobtain : Obtainable (.expression ⟨[⟨"s", 2⟩, ⟨"m", -3⟩]⟩) :=
    hinverse ▸ .inverse (.toExpression (.text _) hexpression)
  obtain ⟨hcanonical, hvalid⟩ := isCanonical_of_obtainable
  have hbase := hvalid _ _ hread
  exact ⟨hobtain, (hcanonical _ hobtain).1, hread, hbase ⟨"m", 1⟩ (by simp),
    hbase ⟨"s", -1⟩ (by simp)⟩

end UnitAlgebra
