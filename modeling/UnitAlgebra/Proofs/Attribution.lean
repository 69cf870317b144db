import UnitAlgebra.Operand.Arithmetic
import UnitAlgebra.Proofs.Reading

/-!
# Whose failure it is

`ConversionFailure` says how operands of each shape fail to convert, and `ExponentFailure` how they
fail in the place of an exponent. Both describe the functions exactly (`toExpression_eq_error_iff`,
`exponentValue_eq_error_iff`). A left operand fails with its own failure, whatever stands on the
right; a right operand fails with its own failure as the source of the failure of the operation.
Since no operand fails to convert because of another operation, a failure is wrapped at most once
(`failures_attributed`).
-/

namespace UnitAlgebra

/-! ## Computations that fail -/

section Except

variable {ε α β : Type} {x : Except ε α}

/-- A chained computation whose first part fails has this failure. -/
theorem bind_of_eq_error {e : ε} (h : x = .error e) (f : α → Except ε β) :
    x >>= f = .error e := by
  rw [h]
  rfl

/-- A chained computation whose first part succeeds is the second part. -/
theorem bind_of_eq_ok {a : α} (h : x = .ok a) (f : α → Except ε β) : x >>= f = f a := by
  rw [h]
  rfl

/-- A chained computation fails in its first part or in its second one. -/
theorem bind_eq_error_iff {f : α → Except ε β} {e : ε} :
    x >>= f = .error e ↔ x = .error e ∨ ∃ a, x = .ok a ∧ f a = .error e := by
  cases x <;> simp [bind, Except.bind]

/-- A computation over a list fails exactly as the first element for which it fails. -/
theorem mapM_eq_error_iff {f : α → Except ε β} {xs : List α} {e : ε} :
    xs.mapM f = .error e ↔ ∃ front z back, xs = front ++ z :: back ∧
      (∀ w ∈ front, ∃ y, f w = .ok y) ∧ f z = .error e := by
  constructor
  · intro h
    induction xs with
    | nil => cases h
    | cons z xs ih =>
      rw [List.mapM_cons, bind_eq_error_iff] at h
      rcases h with hz | ⟨y, hy, hmore⟩
      · exact ⟨[], z, xs, rfl, by simp, hz⟩
      · rcases bind_eq_error_iff.1 hmore with hxs | ⟨ys, -, hpure⟩
        · obtain ⟨front, w, back, rfl, hfront, hw⟩ := ih hxs
          exact ⟨z :: front, w, back, rfl, List.forall_mem_cons.2 ⟨⟨y, hy⟩, hfront⟩, hw⟩
        · cases hpure
  · rintro ⟨front, z, back, rfl, hfront, hz⟩
    induction front with
    | nil =>
      rw [List.nil_append, List.mapM_cons]
      exact bind_of_eq_error hz _
    | cons w front ih =>
      obtain ⟨⟨y, hy⟩, hfront⟩ := List.forall_mem_cons.1 hfront
      rw [List.cons_append, List.mapM_cons, bind_of_eq_ok hy]
      exact bind_of_eq_error (ih hfront) _

end Except

/-! ## Conversion -/

/-- A base that is refused has a fault in its content. -/
theorem Term.exists_fault_of_ofBase_eq_error {base : String} {r : Rat} {f : Failure}
    (h : ofBase base r = .error f) : ∃ fault, f = .content fault := by
  unfold ofBase at h
  split at h
  · cases h
    exact ⟨_, rfl⟩
  · split at h <;> cases h
    exact ⟨_, rfl⟩

namespace Operand

/-- How an item of a list fails to convert to a term. -/
inductive ItemFailure : Operand → ContentFault → Prop
  /-- The exponent of a pair has no value. -/
  | exponent {base : String} {n : Scalar} {fault : ContentFault} :
    n.value = .error (.content fault) → ItemFailure (.pair base n) fault
  /-- The exponent of a pair has a value, but its base is not valid. -/
  | base {base : String} {n : Scalar} {r : Rat} {fault : ContentFault} :
    n.value = .ok r → Term.ofBase base r = .error (.content fault) →
      ItemFailure (.pair base n) fault
  /-- The item is neither a term nor a pair. -/
  | shape {x : Operand} : x.shape ≠ .term → x.shape ≠ .pair →
    ItemFailure x (.notTerm x.shape x.render)

/-- How an operand fails to convert to an expression. An expression, a term and a list of terms do
not. -/
inductive ConversionFailure : Operand → Failure → Prop
  /-- A text is not read. -/
  | text {s fragment : String} {fault : ReadingFault} :
    Terms.read s = .error (.reading fragment fault) →
      ConversionFailure (.text s) (.reading fragment fault)
  /-- A pair is no term. -/
  | pair {base : String} {n : Scalar} {fault : ContentFault} :
    ItemFailure (.pair base n) fault → ConversionFailure (.pair base n) (.content fault)
  /-- The first item at fault is that of the list. -/
  | list {front back : List Operand} {x : Operand} {fault : ContentFault} :
    (∀ y ∈ front, ∃ t, itemTerm y = .ok t) → ItemFailure x fault →
      ConversionFailure (.list (front ++ x :: back)) (.content fault)
  /-- A number is no expression. -/
  | number (n : Scalar) : ConversionFailure (.number n) (.number n.render)

/-- A pair fails exactly as its exponent, or else as its base. -/
theorem pairTerm_eq_error_iff {base : String} {n : Scalar} {f : Failure} :
    pairTerm base n = .error f ↔
      ∃ fault, f = .content fault ∧ ItemFailure (.pair base n) fault := by
  constructor
  · intro h
    rcases bind_eq_error_iff.1 h with hvalue | ⟨r, hr, hbase⟩
    · obtain ⟨fault, rfl⟩ := Scalar.exists_fault_of_value_eq_error hvalue
      exact ⟨fault, rfl, .exponent hvalue⟩
    · obtain ⟨fault, rfl⟩ := Term.exists_fault_of_ofBase_eq_error hbase
      exact ⟨fault, rfl, .base hr hbase⟩
  · rintro ⟨fault, rfl, h⟩
    cases h with
    | exponent hvalue => exact bind_of_eq_error hvalue _
    | base hr hbase => exact bind_eq_error_iff.2 (.inr ⟨_, hr, hbase⟩)
    | shape _ hpair => exact absurd rfl hpair

/-- An item that is neither a term nor a pair fails as such. -/
theorem itemTerm_eq_error_iff_of_shape_ne {x : Operand} (hterm : x.shape ≠ .term)
    (hpair : x.shape ≠ .pair) {f : Failure} :
    itemTerm x = .error f ↔ ∃ fault, f = .content fault ∧ ItemFailure x fault := by
  have hitem : itemTerm x = .error (.content (.notTerm x.shape x.render)) := by
    cases x with
    | term t => exact absurd rfl hterm
    | pair base n => exact absurd rfl hpair
    | _ => rfl
  rw [hitem]
  constructor
  · intro h
    cases h
    exact ⟨_, rfl, .shape hterm hpair⟩
  · rintro ⟨fault, rfl, h⟩
    cases h with
    | exponent => exact absurd rfl hpair
    | base => exact absurd rfl hpair
    | shape => rfl

/-- An item of a list fails exactly as `ItemFailure` says. -/
theorem itemTerm_eq_error_iff {x : Operand} {f : Failure} :
    itemTerm x = .error f ↔ ∃ fault, f = .content fault ∧ ItemFailure x fault := by
  cases x with
  | pair base n => exact pairTerm_eq_error_iff
  | term t =>
    constructor
    · intro h
      cases h
    · rintro ⟨_, _, h⟩
      cases h with
      | shape hterm _ => exact absurd rfl hterm
  | _ => exact itemTerm_eq_error_iff_of_shape_ne (by simp [shape]) (by simp [shape])

/-- An operand fails to convert exactly as `ConversionFailure` says. -/
theorem toExpression_eq_error_iff {x : Operand} {f : Failure} :
    x.toExpression = .error f ↔ ConversionFailure x f := by
  constructor
  · intro h
    cases x with
    | expression e => cases h
    | term t => cases h
    | terms ts => cases h
    | text s =>
      have hread : Terms.read s = .error f := map_eq_error_iff.1 h
      obtain ⟨fragment, fault, rfl⟩ :=
        Failure.isReading_iff.1 (Terms.isReading_of_read_eq_error hread)
      exact .text hread
    | pair base n =>
      obtain ⟨fault, rfl, hitem⟩ :=
        pairTerm_eq_error_iff.1 (map_eq_error_iff.1 (map_eq_error_iff.1 h))
      exact .pair hitem
    | list items =>
      obtain ⟨front, x, back, rfl, hfront, hx⟩ := mapM_eq_error_iff.1 (map_eq_error_iff.1 h)
      obtain ⟨fault, rfl, hitem⟩ := itemTerm_eq_error_iff.1 hx
      exact .list hfront hitem
    | number n =>
      cases h
      exact .number n
  · intro h
    cases h with
    | text hread => exact map_eq_error_iff.2 hread
    | pair hitem =>
      exact map_eq_error_iff.2 (map_eq_error_iff.2 (pairTerm_eq_error_iff.2 ⟨_, rfl, hitem⟩))
    | list hfront hitem =>
      have hx := itemTerm_eq_error_iff.2 ⟨_, rfl, hitem⟩
      exact map_eq_error_iff.2 (mapM_eq_error_iff.2 ⟨_, _, _, rfl, hfront, hx⟩)
    | number n => rfl

/-- A failure to convert is not that of another operation. -/
theorem ConversionFailure.isAlgebraic_eq_false {x : Operand} {f : Failure}
    (h : ConversionFailure x f) : f.isAlgebraic = false := by
  cases h <;> rfl

/-! ## Exponents -/

/-- How an operand fails in the place of an exponent: a number with its own failure, and any other
operand as the right operand of a product. -/
inductive ExponentFailure : Operand → Failure → Prop
  /-- A number has no value. -/
  | number {n : Scalar} {fault : ContentFault} : n.value = .error (.content fault) →
    ExponentFailure (.number n) (.content fault)
  /-- An operand other than a number does not convert. -/
  | conversion {x : Operand} {f : Failure} : (∀ n, x ≠ .number n) → ConversionFailure x f →
    ExponentFailure x (.product x.render f)
  /-- An operand converts to an expression without a numeric value. -/
  | symbolic {x : Operand} {e : Expression} : x.toExpression = .ok e → e.number? = none →
    ExponentFailure x (.product x.render (.content (.symbolicExponent e.render)))

/-- An operand fails in the place of an exponent exactly as `ExponentFailure` says. -/
theorem exponentValue_eq_error_iff {x : Operand} {f : Failure} :
    Expression.exponentValue x = .error f ↔ ExponentFailure x f := by
  by_cases hx : ∃ n, x = .number n
  · obtain ⟨n, rfl⟩ := hx
    constructor
    · intro h
      obtain ⟨fault, rfl⟩ := Scalar.exists_fault_of_value_eq_error h
      exact .number h
    · intro h
      cases h with
      | number hvalue => exact hvalue
      | conversion hne _ => exact absurd rfl (hne n)
      | symbolic he _ => cases he
  · have hne : ∀ n, x ≠ .number n := not_exists.1 hx
    constructor
    · intro h
      rw [Expression.exponentValue_of_ne_number hne] at h
      split at h
      · next hconversion =>
        cases h
        exact .conversion hne (toExpression_eq_error_iff.1 hconversion)
      · next he =>
        split at h
        · cases h
        · next hnumber =>
          cases h
          exact .symbolic he hnumber
    · intro h
      cases h with
      | number => exact absurd rfl (hne _)
      | conversion _ hconversion =>
        simp only [Expression.exponentValue_of_ne_number hne,
          toExpression_eq_error_iff.2 hconversion]
      | symbolic he hnumber =>
        simp only [Expression.exponentValue_of_ne_number hne, he, hnumber]

/-- An exponent is a number with a value, or converts to an expression with a numeric value. -/
theorem exponentValue_eq_ok_iff_cases {x : Operand} {r : Rat} :
    Expression.exponentValue x = .ok r ↔
      (∃ n, x = .number n ∧ n.value = .ok r) ∨
        ∃ e, x.toExpression = .ok e ∧ e.number? = some r := by
  by_cases hx : ∃ n, x = .number n
  · obtain ⟨n, rfl⟩ := hx
    constructor
    · exact fun h => .inl ⟨n, rfl, h⟩
    · rintro (⟨m, hm, hvalue⟩ | ⟨e, he, -⟩)
      · cases hm
        exact hvalue
      · cases he
  · have hne : ∀ n, x ≠ .number n := not_exists.1 hx
    rw [Expression.exponentValue_eq_ok_iff hne]
    simp [hne]

/-- The source of a failure in the place of an exponent is not that of another operation. -/
theorem ExponentFailure.isAlgebraic_source {x : Operand} {f source : Failure}
    (h : ExponentFailure x f) (hsource : f.source? = some source) : source.isAlgebraic = false := by
  cases h with
  | number => cases hsource
  | conversion _ hconversion =>
    cases hsource
    exact hconversion.isAlgebraic_eq_false
  | symbolic =>
    cases hsource
    rfl

/-! ## Operations -/

section Operations

variable {x y : Operand} {a b : Expression} {f : Failure}

/-- A left operand that does not convert makes every operation fail with its own failure. -/
theorem operations_of_left_eq_error (hx : x.toExpression = .error f) (y : Operand) :
    x.product y = .error f ∧ x.ratio y = .error f ∧ x.power y = .error f ∧
      x.equality y = .error f :=
  ⟨bind_of_eq_error hx _, bind_of_eq_error hx _, bind_of_eq_error hx _, bind_of_eq_error hx _⟩

/-- A right operand that does not convert makes the product, the ratio and the comparison fail. -/
theorem operations_of_right_eq_error (hx : x.toExpression = .ok a)
    (hy : y.toExpression = .error f) :
    x.product y = .error (.product y.render f) ∧ x.ratio y = .error (.ratio y.render f) ∧
      x.equality y = .error f := by
  refine ⟨?_, ?_, ?_⟩
  · rw [product, bind_of_eq_ok hx, Expression.multipliedBy, hy]
  · rw [ratio, bind_of_eq_ok hx, Expression.dividedBy, hy]
  · rw [equality, bind_of_eq_ok hx]
    exact bind_of_eq_error hy _

/-- Operands that convert have a product and a ratio, and are compared. -/
theorem operations_of_eq_ok (hx : x.toExpression = .ok a) (hy : y.toExpression = .ok b) :
    x.product y = .ok (a * b) ∧ x.ratio y = .ok (a / b) ∧ x.equality y = .ok (a == b) := by
  refine ⟨?_, ?_, ?_⟩
  · rw [product, bind_of_eq_ok hx, Expression.multipliedBy, hy]
  · rw [ratio, bind_of_eq_ok hx, Expression.dividedBy, hy]
  · rw [equality, bind_of_eq_ok hx, bind_of_eq_ok hy]
    rfl

/-- A power fails exactly as its exponent does, if the left operand converts. -/
theorem power_eq_error_iff (hx : x.toExpression = .ok a) :
    x.power y = .error f ↔ ExponentFailure y f := by
  rw [power, bind_of_eq_ok hx, Expression.raisedTo, map_eq_error_iff, exponentValue_eq_error_iff]

/-- A power is that of the value of the exponent, if the left operand converts. -/
theorem power_eq_ok_iff (hx : x.toExpression = .ok a) {e : Expression} :
    x.power y = .ok e ↔ ∃ r, Expression.exponentValue y = .ok r ∧ a.pow r = e := by
  rw [power, bind_of_eq_ok hx, Expression.raisedTo_eq_ok_iff]

/-- The source of the failure of an operation is not that of another one. -/
theorem isAlgebraic_source {source : Failure}
    (h : x.product y = .error f ∨ x.ratio y = .error f ∨ x.power y = .error f)
    (hsource : f.source? = some source) : source.isAlgebraic = false := by
  cases hx : x.toExpression with
  | error g =>
    -- the failure of the left operand has no source
    obtain ⟨hproduct, hratio, hpower, -⟩ := operations_of_left_eq_error hx y
    rw [hproduct, hratio, hpower, or_self, or_self] at h
    cases h
    cases toExpression_eq_error_iff.1 hx <;> cases hsource
  | ok a =>
    rw [power_eq_error_iff hx] at h
    cases hy : y.toExpression with
    | error g =>
      have hg := (toExpression_eq_error_iff.1 hy).isAlgebraic_eq_false
      obtain ⟨hproduct, hratio, -⟩ := operations_of_right_eq_error hx hy
      rw [hproduct, hratio] at h
      rcases h with h | h | h
      · cases h
        cases hsource
        exact hg
      · cases h
        cases hsource
        exact hg
      · exact h.isAlgebraic_source hsource
    | ok b =>
      obtain ⟨hproduct, hratio, -⟩ := operations_of_eq_ok hx hy
      rw [hproduct, hratio] at h
      rcases h with h | h | h
      · cases h
      · cases h
      · exact h.isAlgebraic_source hsource

end Operations

end Operand

open Operand

/-- A left operand that does not convert makes all four operations fail with its own failure. If it
converts, a right operand that does not makes the product and the ratio fail with its failure as the
source, and the comparison with the failure itself; a power fails exactly as its exponent does. Any
other operands have a product, a ratio and a power. A source is not the failure of an operation. -/
theorem failures_attributed (x y : Operand) :
    (∀ f, x.toExpression = .error f ↔ ConversionFailure x f) ∧
    (∀ f, x.toExpression = .error f →
      x.product y = .error f ∧ x.ratio y = .error f ∧ x.power y = .error f ∧
        x.equality y = .error f) ∧
    (∀ a, x.toExpression = .ok a →
      (∀ f, y.toExpression = .error f →
        x.product y = .error (.product y.render f) ∧ x.ratio y = .error (.ratio y.render f) ∧
          x.equality y = .error f) ∧
      (∀ b, y.toExpression = .ok b →
        x.product y = .ok (a * b) ∧ x.ratio y = .ok (a / b) ∧ x.equality y = .ok (a == b)) ∧
      (∀ f, x.power y = .error f ↔ ExponentFailure y f) ∧
      ∀ e, x.power y = .ok e ↔ ∃ r, a.pow r = e ∧
        ((∃ n, y = .number n ∧ n.value = .ok r) ∨
          ∃ b, y.toExpression = .ok b ∧ b.number? = some r)) ∧
    ∀ f source, x.product y = .error f ∨ x.ratio y = .error f ∨ x.power y = .error f →
      f.source? = some source → source.isAlgebraic = false := by
  refine ⟨fun f => toExpression_eq_error_iff, fun f hx => operations_of_left_eq_error hx y,
    fun a hx => ⟨fun f hy => operations_of_right_eq_error hx hy,
      fun b hy => operations_of_eq_ok hx hy, fun f => power_eq_error_iff hx, fun e => ?_⟩,
    fun f source h => isAlgebraic_source h⟩
  rw [power_eq_ok_iff hx]
  simp only [exponentValue_eq_ok_iff_cases, and_comm]

/-- A list with a number in it fails by itself on the left of a text that fails as well, and is the
source of the failure on the right of a length. A length has no power with a symbol. -/
theorem failures_attributed_length :
    (Operand.list [.pair "s" (.integer 2), .number (.integer 3)]).power (.text "m *") =
      .error (.content (.notTerm .number "3")) ∧
    (Operand.text "m").ratio (.list [.pair "s" (.integer 2), .number (.integer 3)]) =
      .error (.ratio "[(s, 2), 3]" (.content (.notTerm .number "3"))) ∧
    (Operand.text "m").power (.text "s") =
      .error (.product "s" (.content (.symbolicExponent "s"))) := by
  have hrender : (Operand.list [.pair "s" (.integer 2), .number (.integer 3)]).render =
      "[(s, 2), 3]" := by decide +kernel
  have hterms : (Operand.list [.pair "s" (.integer 2), .number (.integer 3)]).toTerms =
      .error (.content (.notTerm .number "3")) := by decide +kernel
  have hlist : (Operand.list [.pair "s" (.integer 2), .number (.integer 3)]).toExpression =
      .error (.content (.notTerm .number "3")) := by
    rw [toExpression_eq_map (by simp), hterms]
    rfl
  have hm : Terms.read "m" = .ok [⟨"m", 1⟩] := by decide +kernel
  have hs : Terms.read "s" = .ok [⟨"s", 1⟩] := by decide +kernel
  have hnumber : (Expression.ofTerms [⟨"s", 1⟩]).number? = none := by decide +kernel
  have hsymbol : (Expression.ofTerms [⟨"s", 1⟩]).render = "s" := by decide +kernel
  have hexponent : ExponentFailure (.text "s") (.product "s" (.content (.symbolicExponent "s"))) :=
    hsymbol ▸ .symbolic (toExpression_text_of_read hs) hnumber
  obtain ⟨-, hleft, -⟩ := failures_attributed
    (.list [.pair "s" (.integer 2), .number (.integer 3)]) (.text "m *")
  obtain ⟨-, -, hright, -⟩ := failures_attributed (.text "m")
    (.list [.pair "s" (.integer 2), .number (.integer 3)])
  obtain ⟨-, -, hpower, -⟩ := failures_attributed (.text "m") (.text "s")
  obtain ⟨hfailure, -⟩ := hright _ (toExpression_text_of_read hm)
  obtain ⟨-, -, hsymbolic, -⟩ := hpower _ (toExpression_text_of_read hm)
  obtain ⟨-, hratio, -⟩ := hfailure _ hlist
  obtain ⟨-, -, hleftpower, -⟩ := hleft _ hlist
  rw [hrender] at hratio
  exact ⟨hleftpower, hratio, (hsymbolic _).2 hexponent⟩

end UnitAlgebra
