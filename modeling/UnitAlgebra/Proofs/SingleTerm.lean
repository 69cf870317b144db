import UnitAlgebra.Proofs.Attribution
import UnitAlgebra.Proofs.Writing

/-!
# Single terms

An operand stands for a single term when it has exactly one, counted before anything is reduced. So
it fails to do so either as it fails to have terms at all, or by the number of them
(`toTerm_eq_error_iff`), and its single term makes the same expression as the operand
(`IsSound.toExpression_of_toTerm`, `toTerm_agrees`).

A term alone is written with the sign of its exponent and without a leading slash, unlike in a list
of terms. This text is one factor, so it reads back to the term, and to no term where the base is
neutral (`Term.read_render`). A term that was read has another base, so its text always reads back
(`term_text_reads_back`).
-/

namespace UnitAlgebra

/-! ## The text of a term -/

namespace Term

/-- The text of a term with a valid base is read as this term, if it is not neutral. -/
theorem read_render {t : Term} (h : ValidBase t.base) :
    Terms.read t.render = .ok ([t].filter fun u => !u.isNeutral) := by
  refine @Terms.read_of_product _ (t.lexemes [] ++ []) [] _ ?_ ?_ ?_
  · rw [List.append_nil, List.append_nil, source_lexemes, List.nil_append]
  · exact scanned_lexemes_append (by simp) h (by simp) (.nil (by simp))
  · rw [List.map_append]
    exact .plain (t.factor_lexemes []) .nil

/-- The text of a term that is not neutral is read as the term. -/
theorem read_render_of_ne {t : Term} (h : ValidBase t.base) (hne : t.base ≠ "1") :
    Terms.read t.render = .ok [t] := by
  rw [read_render h, List.filter_cons_of_pos (by simpa [isNeutral] using hne), List.filter_nil]

/-- The text of a neutral term is read as no term. -/
theorem read_render_of_eq {t : Term} (h : t.base = "1") : Terms.read t.render = .ok [] := by
  have hvalid : ValidBase t.base := h ▸ by decide
  rw [read_render hvalid, List.filter_cons_of_neg (by simp [isNeutral, h]), List.filter_nil]

end Term

/-- A term that is read is not neutral, and has a valid base. -/
theorem Terms.base_of_read {text : String} {t : Term} (h : read text = .ok [t]) :
    ValidBase t.base ∧ t.base ≠ "1" := by
  refine ⟨validBase_of_mem_read h t (by simp), ?_⟩
  simpa [Term.isNeutral] using isNeutral_of_mem_read h t (by simp)

namespace Operand

/-! ## The single term of an operand -/

/-- An operand stands for no single term exactly when it has no terms, or a number of terms other
than one. -/
theorem toTerm_eq_error_iff {x : Operand} {f : Failure} :
    x.toTerm = .error f ↔ x.toTerms = .error f ∨
      ∃ ts, x.toTerms = .ok ts ∧ ts.length ≠ 1 ∧ f = .content (.notSingle x.render ts.length) := by
  rw [toTerm_eq_bind, bind_eq_error_iff]
  simp only [single_eq_error_iff]

/-- The single term of a sound operand makes the expression of the operand. -/
theorem IsSound.toExpression_of_toTerm {x : Operand} (hx : x.IsSound) {t : Term}
    (h : x.toTerm = .ok t) : x.toExpression = .ok (.ofTerms [t]) := by
  have hterms : x.toTerms = .ok [t] := toTerm_eq_ok_iff.1 h
  by_cases hexp : ∃ e, x = .expression e
  · -- an expression is canonical, so bringing its term into canonical form changes nothing
    obtain ⟨e, rfl⟩ := hexp
    have he : e.terms = [t] := Except.ok.inj hterms
    have hcanonical : Terms.IsCanonical e.terms := (hx.expression e rfl).isCanonical
    rw [← he, Expression.ofTerms, Terms.reduce_of_isCanonical hcanonical]
    rfl
  · rw [toExpression_eq_map fun e he => hexp ⟨e, he⟩, hterms]
    rfl

/-- An operand that stands for no single term but converts to an expression has a number of terms
other than one. -/
theorem exists_terms_of_toTerm_eq_error {x : Operand} {f : Failure} {e : Expression}
    (hf : x.toTerm = .error f) (he : x.toExpression = .ok e) :
    ∃ ts, x.toTerms = .ok ts ∧ ts.length ≠ 1 ∧ f = .content (.notSingle x.render ts.length) := by
  refine (toTerm_eq_error_iff.1 hf).resolve_left fun hterms => ?_
  rw [toExpression_eq_error_iff_toTerms.2 hterms] at he
  cases he

/-- The text of a term is the text of this term for an operand. -/
theorem toTerm_text_render {t : Term} (h : ValidBase t.base) (hne : t.base ≠ "1") :
    (text t.render).toTerm = .ok t :=
  toTerm_eq_ok_iff.2 (t.read_render_of_ne h hne)

end Operand

open Operand

/-- The text of a term with a valid base stands for the term again, whatever its exponent, unless
the base is neutral; then it has no term. Any text that stands for a term is written back as a text
that stands for the same term, and is written back as itself. -/
theorem term_text_reads_back :
    (∀ t : Term, ValidBase t.base →
      (t.base ≠ "1" → (Operand.text t.render).toTerm = .ok t) ∧
      (t.base = "1" →
        (Operand.text t.render).toTerm = .error (.content (.notSingle t.render 0)))) ∧
    ∀ (s : String) (t : Term), (Operand.text s).toTerm = .ok t →
      (Operand.text t.render).toTerm = .ok t ∧
      (Operand.text t.render).toTerm.map Term.render = .ok t.render := by
  refine ⟨fun t hvalid => ⟨fun hne => toTerm_text_render hvalid hne, fun hone => ?_⟩,
    fun s t hs => ?_⟩
  · exact toTerm_eq_error_iff.2 (.inr ⟨[], t.read_render_of_eq hone, by simp, rfl⟩)
  · obtain ⟨hvalid, hne⟩ := Terms.base_of_read (toTerm_eq_ok_iff.1 hs)
    have hback : (Operand.text t.render).toTerm = .ok t := toTerm_text_render hvalid hne
    refine ⟨hback, ?_⟩
    rw [hback]
    rfl

/-- A negative fraction for an exponent, a neutral base, and a text that is written back in another
spelling. -/
theorem term_text_reads_back_signed :
    ValidBase "s" ∧ (Operand.text "s^-3/2").toTerm = .ok ⟨"s", -3/2⟩ ∧
    ValidBase "1" ∧
    (Operand.text "1^-3/2").toTerm = .error (.content (.notSingle "1^-3/2" 0)) ∧
    (Operand.text "1 / s^(+1.50)").toTerm = .ok ⟨"s", -3/2⟩ ∧
    (Operand.text "s^-3/2").toTerm.map Term.render = .ok "s^-3/2" := by
  have hs : Term.render ⟨"s", -3/2⟩ = "s^-3/2" := by decide +kernel
  have hone : Term.render ⟨"1", -3/2⟩ = "1^-3/2" := by decide +kernel
  have hterm : (Operand.text "1 / s^(+1.50)").toTerm = .ok ⟨"s", -3/2⟩ := by decide +kernel
  obtain ⟨hback, hagain⟩ := term_text_reads_back
  obtain ⟨hterms, -⟩ := hback ⟨"s", -3/2⟩ (by decide)
  obtain ⟨-, hneutral⟩ := hback ⟨"1", -3/2⟩ (by decide)
  obtain ⟨-, hwritten⟩ := hagain _ _ hterm
  exact ⟨by decide, hs ▸ hterms (by decide), by decide, hone ▸ hneutral rfl, hterm, hs ▸ hwritten⟩

/-- The single term of an operand makes the expression of the operand. An operand that does not
convert to an expression stands for no single term either, with the same failure; one that does
convert fails to stand for a single term only by the number of its terms, before they are
reduced. -/
theorem toTerm_agrees :
    (∀ x : Operand, Obtainable (.operand x) → ∀ t, x.toTerm = .ok t →
      x.toExpression = .ok (.ofTerms [t])) ∧
    (∀ (x : Operand) (f : Failure), x.toExpression = .error f → x.toTerm = .error f) ∧
    ∀ (x : Operand) (f : Failure) (e : Expression), x.toTerm = .error f → x.toExpression = .ok e →
      ∃ ts, x.toTerms = .ok ts ∧ ts.length ≠ 1 ∧
        f = .content (.notSingle x.render ts.length) := by
  refine ⟨fun x hx t ht => ?_, fun x f hf => ?_, fun x f e => exists_terms_of_toTerm_eq_error⟩
  · have hsound : x.IsSound := hx.isSound
    exact hsound.toExpression_of_toTerm ht
  · exact toTerm_eq_error_iff.2 (.inl (toExpression_eq_error_iff_toTerms.1 hf))

/-- A list of one pair, a list of one item that is neither a term nor a pair, and a text of two
terms that make an expression of one. -/
theorem toTerm_agrees_counted :
    (Operand.list [.pair "s" (.text "-1/2")]).toTerm = .ok ⟨"s", -1/2⟩ ∧
    (Operand.list [.pair "s" (.text "-1/2")]).toExpression = .ok (.ofTerms [⟨"s", -1/2⟩]) ∧
    (Operand.list [.text "s"]).toTerm = .error (.content (.notTerm .text "s")) ∧
    (Operand.text "m * m").toExpression = .ok ⟨[⟨"m", 2⟩]⟩ ∧
    ∃ ts, Terms.read "m * m" = .ok ts ∧ ts.length ≠ 1 := by
  have hpair : (Operand.list [.pair "s" (.text "-1/2")]).toTerm = .ok ⟨"s", -1/2⟩ := by
    decide +kernel
  have hobtain : Obtainable (.operand (.list [.pair "s" (.text "-1/2")])) :=
    .list (List.forall_mem_singleton.2 (.pair _ _))
  have hread : Terms.read "m * m" = .ok [⟨"m", 1⟩, ⟨"m", 1⟩] := by decide +kernel
  have hreduce : Terms.reduce [⟨"m", 1⟩, ⟨"m", 1⟩] = [⟨"m", 2⟩] := by decide +kernel
  have hexpression := toExpression_text_of_read hread
  rw [hreduce] at hexpression
  have hcount : (Operand.text "m * m").toTerm = .error (.content (.notSingle "m * m" 2)) := by
    decide +kernel
  obtain ⟨hsame, hfails, hnumber⟩ := toTerm_agrees
  obtain ⟨ts, hts, hlength, -⟩ := hnumber _ _ _ hcount hexpression
  exact ⟨hpair, hsame _ hobtain _ hpair, hfails _ _ rfl, hexpression, ts, hts, hlength⟩

end UnitAlgebra
