import UnitAlgebra.Proofs.Fraction
import UnitAlgebra.Proofs.Obtainable

/-!
# Written terms read back

`render` writes a list of terms as a first factor and then the others, each behind its operator
(`render_eq_headed`): the neutral factor stands in front of an empty list and of a leading slash.
`lexemesRest` gives the lexemes of the factors after the first, and their symbols are a continuation
with exactly these terms. So reading the text of a list gives the list back, without its neutral
terms (`read_render`). A sound expression has none and is canonical, so it is the expression of its
text, term by term and in the same order.
-/

namespace UnitAlgebra

open UnitAlgebra.Text

namespace Term

/-- The neutral factor as it is written. -/
def neutral : Term :=
  ⟨"1", 1⟩

/-- The lexemes of a term behind a gap. -/
def lexemes (gap : List Char) (t : Term) : List Lexeme :=
  ⟨gap, t.base.toList, .base t.base⟩ ::
    if t.exponent = 1 then []
    else [⟨[], ['^'], .caret⟩, ⟨[], Fraction.spell t.exponent, .exponent t.exponent⟩]

/-- The lexemes of a term are its text. -/
theorem source_lexemes (gap : List Char) (t : Term) :
    (t.lexemes gap).flatMap Lexeme.source = gap ++ t.render.toList := by
  unfold lexemes render
  split
  · simp [Lexeme.source]
  · simp [Lexeme.source, Fraction.toList_render]

/-- The symbols of a term are a factor with this term. -/
theorem factor_lexemes (gap : List Char) (t : Term) :
    Grammar.Factor ((t.lexemes gap).map Lexeme.symbol) t := by
  obtain ⟨name, value⟩ := t
  unfold lexemes
  simp only
  split
  · next h =>
    subst h
    exact .bare name
  · exact .raised name value

/-- A written term is scanned as a whole, in front of a blank or the end of the text. -/
theorem scanned_lexemes_append {gap : List Char} {t : Term} {xs : List Lexeme} {tail : List Char}
    (hgap : ∀ c ∈ gap, isBlank c = true) (ht : ValidBase t.base)
    (hnext : ∀ c ∈ (xs.flatMap Lexeme.source ++ tail).head?, isBlank c = true)
    (h : Lexeme.Scanned false xs tail) : Lexeme.Scanned false (t.lexemes gap ++ xs) tail := by
  unfold lexemes
  split
  · have hstop : ∀ c ∈ (xs.flatMap Lexeme.source ++ tail).head?, isBaseChar c = false :=
      fun c hc => by simp [isBaseChar, hnext c hc]
    exact .cons (.base hgap ht hstop) h
  · -- the caret ends the base, and a blank or the end of the text ends the exponent
    refine .cons (.base hgap ht ?_)
      (.cons (.operator (by simp) rfl) (.cons (.exponent (by simp) ?_) h))
    · have hcaret : isBaseChar '^' = false := by decide
      simpa [Lexeme.source] using hcaret
    · exact Exponent.read_spell_append t.exponent hnext

/-- The inverse of an inverse is the term itself. -/
theorem inverse_inverse (t : Term) : t.inverse.inverse = t := by
  simp [inverse, withExponent]

end Term

namespace Terms

/-- The operator in front of a term, behind a space. -/
def operatorLexeme (t : Term) : Lexeme :=
  if t.exponent < 0 then ⟨[' '], ['/'], .slash⟩ else ⟨[' '], ['*'], .star⟩

/-- The lexemes of the terms after the first. -/
def lexemesRest : List Term → List Lexeme
  | [] => []
  | t :: ts => operatorLexeme t :: (t.magnitude.lexemes [' '] ++ lexemesRest ts)

/-- The first factor of a written list, and the terms that are written behind it. -/
def headed : List Term → Term × List Term
  | [] => (.neutral, [])
  | t :: ts => if t.exponent < 0 then (.neutral, t :: ts) else (t, ts)

/-- In front of a leading slash the neutral factor is written. -/
theorem headed_of_neg {t : Term} (ht : t.exponent < 0) (ts : List Term) :
    headed (t :: ts) = (.neutral, t :: ts) :=
  if_pos ht

/-- A leading term without a slash is the first factor itself. -/
theorem headed_of_not_neg {t : Term} (ht : ¬t.exponent < 0) (ts : List Term) :
    headed (t :: ts) = (t, ts) :=
  if_neg ht

/-- A written list is its first factor and then the other terms. -/
theorem render_eq_headed (ts : List Term) :
    render ts = (headed ts).1.render ++ renderRest (headed ts).2 := by
  cases ts with
  | nil => rfl
  | cons t ts =>
    by_cases ht : t.exponent < 0
    · have hslash : "1 / " = Term.neutral.render ++ " / " := by decide
      rw [headed_of_neg ht, render, if_pos ht, renderRest, if_pos ht, hslash]
      simp only [String.append_assoc]
    · rw [headed_of_not_neg ht, render, if_neg ht, Term.magnitude, if_neg ht, String.empty_append]

/-- A first factor that was put in front is neutral. -/
theorem filter_headed (ts : List Term) :
    ((headed ts).1 :: (headed ts).2).filter (fun t => !t.isNeutral) =
      ts.filter fun t => !t.isNeutral := by
  cases ts with
  | nil => rfl
  | cons t ts =>
    by_cases ht : t.exponent < 0
    · rw [headed_of_neg ht]
      rfl
    · rw [headed_of_not_neg ht]

/-- The factors of a written list have valid bases if its terms have. -/
theorem validBase_headed {ts : List Term} (h : ∀ t ∈ ts, ValidBase t.base) :
    ∀ t ∈ (headed ts).1 :: (headed ts).2, ValidBase t.base := by
  have hneutral : ValidBase Term.neutral.base := by decide
  cases ts with
  | nil => exact List.forall_mem_cons.2 ⟨hneutral, h⟩
  | cons t ts =>
    by_cases ht : t.exponent < 0
    · rw [headed_of_neg ht]
      exact List.forall_mem_cons.2 ⟨hneutral, h⟩
    · rw [headed_of_not_neg ht]
      exact h

/-- The lexemes of the terms after the first are their text. -/
theorem source_lexemesRest (ts : List Term) :
    (lexemesRest ts).flatMap Lexeme.source = (renderRest ts).toList := by
  induction ts with
  | nil => rfl
  | cons t ts ih =>
    unfold lexemesRest renderRest operatorLexeme
    rw [List.flatMap_cons, List.flatMap_append, Term.source_lexemes, ih]
    split
    · simp [Lexeme.source]
    · simp [Lexeme.source]

/-- The text of the terms after the first starts with a blank, if there are any. -/
theorem isBlank_head_renderRest (ts : List Term) :
    ∀ c ∈ (renderRest ts).toList.head?, isBlank c = true := by
  have hspace : isBlank ' ' = true := by decide
  cases ts with
  | nil => simp [renderRest]
  | cons t ts =>
    unfold renderRest
    split
    · simpa using hspace
    · simpa using hspace

/-- The text of the terms after the first is scanned as their lexemes. -/
theorem scanned_lexemesRest {ts : List Term} (h : ∀ t ∈ ts, ValidBase t.base) :
    Lexeme.Scanned false (lexemesRest ts) [] := by
  have hspace : ∀ c ∈ [' '], isBlank c = true := List.forall_mem_singleton.2 (by decide)
  induction ts with
  | nil => exact .nil (by simp)
  | cons t ts ih =>
    obtain ⟨ht, hts⟩ := List.forall_mem_cons.1 h
    have hbase : t.magnitude.base = t.base := by
      unfold Term.magnitude
      split <;> rfl
    -- a factor ends at the space in front of the next operator, or at the end of the text
    have hfactor := Term.scanned_lexemes_append hspace (hbase.symm ▸ ht)
      (by rw [source_lexemesRest, List.append_nil]; exact isBlank_head_renderRest ts) (ih hts)
    unfold lexemesRest operatorLexeme
    split
    · exact .cons (.operator hspace rfl) hfactor
    · exact .cons (.operator hspace rfl) hfactor

/-- The symbols of the terms after the first are a continuation with these terms. -/
theorem continuation_lexemesRest (ts : List Term) :
    Grammar.Continuation ((lexemesRest ts).map Lexeme.symbol) ts := by
  induction ts with
  | nil => exact .nil
  | cons t ts ih =>
    have hfactor := t.magnitude.factor_lexemes [' ']
    unfold lexemesRest operatorLexeme
    rw [List.map_cons, List.map_append]
    unfold Term.magnitude at hfactor ⊢
    split
    · next ht =>
      -- the slash turns the magnitude over, back to the term
      rw [if_pos ht] at hfactor
      have hslash := Grammar.Continuation.slash hfactor ih
      rwa [Term.inverse_inverse] at hslash
    · next ht =>
      rw [if_neg ht] at hfactor
      exact .star hfactor ih

/-- The text of a list of terms with valid bases reads back to the list, in its order and without
its neutral terms. -/
theorem read_render {ts : List Term} (h : ∀ t ∈ ts, ValidBase t.base) :
    read (render ts) = .ok (ts.filter fun t => !t.isNeutral) := by
  obtain ⟨hhead, htail⟩ := List.forall_mem_cons.1 (validBase_headed h)
  rw [← filter_headed ts]
  refine @read_of_product _ ((headed ts).1.lexemes [] ++ lexemesRest (headed ts).2) [] _ ?_ ?_ ?_
  · -- the text is the lexemes of its factors
    rw [render_eq_headed, String.toList_append, List.flatMap_append, Term.source_lexemes,
      source_lexemesRest, List.nil_append, List.append_nil]
  · refine Term.scanned_lexemes_append (by simp) hhead ?_ (scanned_lexemesRest htail)
    rw [source_lexemesRest, List.append_nil]
    exact isBlank_head_renderRest _
  · -- their symbols are a product
    rw [List.map_append]
    exact .plain (Term.factor_lexemes [] _) (continuation_lexemesRest _)

end Terms

/-- A sound expression is the expression of its text. -/
theorem Expression.IsSound.toExpression_render {e : Expression} (h : e.IsSound) :
    (Operand.text e.render).toExpression = .ok e := by
  have hfilter : e.terms.filter (fun t => !t.isNeutral) = e.terms :=
    List.filter_eq_self.2 fun t ht => by simp [h.isCanonical.isNeutral_eq_false t ht]
  calc (Operand.text e.render).toExpression
      = (Terms.read (Terms.render e.terms)).map ofTerms := Operand.toExpression_text _
    _ = .ok (ofTerms e.terms) := by rw [Terms.read_render h.validBase, hfilter]; rfl
    _ = .ok e := by rw [ofTerms, Terms.reduce_of_isCanonical h.isCanonical]

/-- The text of any terms with valid bases reads back to these terms without the neutral ones, and
the text of any obtainable expression reads back to this expression; the order is kept. -/
theorem render_reads_back :
    (∀ ts : List Term, (∀ t ∈ ts, ValidBase t.base) →
      Terms.read (Terms.render ts) = .ok (ts.filter fun t => !t.isNeutral)) ∧
    ∀ e, Obtainable (.expression e) → (Operand.text e.render).toExpression = .ok e := by
  refine ⟨fun ts hvalid => Terms.read_render hvalid, fun e he => ?_⟩
  have hsound : e.IsSound := he.isSound
  exact hsound.toExpression_render

/-- A leading slash, a neutral factor, a zero exponent, a numeric base with a fraction and a base
that occurs twice all read back, and so does an expression that starts with a slash. -/
theorem render_reads_back_mixed :
    Terms.read "1 / s * 1^2 * kg^0 / 2^3/2 * s" =
      .ok [⟨"s", -1⟩, ⟨"kg", 0⟩, ⟨"2", -3/2⟩, ⟨"s", 1⟩] ∧
    Obtainable (.expression ⟨[⟨"s", -1⟩]⟩) ∧
    (Operand.text "1 / s").toExpression = .ok ⟨[⟨"s", -1⟩]⟩ := by
  obtain ⟨hread, hexpression⟩ := render_reads_back
  have hvalid : ∀ t ∈ [(⟨"s", -1⟩ : Term), ⟨"1", 2⟩, ⟨"kg", 0⟩, ⟨"2", -3/2⟩, ⟨"s", 1⟩],
      ValidBase t.base := by decide +kernel
  have hterms : Terms.render [⟨"s", -1⟩, ⟨"1", 2⟩, ⟨"kg", 0⟩, ⟨"2", -3/2⟩, ⟨"s", 1⟩] =
      "1 / s * 1^2 * kg^0 / 2^3/2 * s" := by decide +kernel
  have hreduce : Terms.reduce [⟨"s", -1⟩] = [⟨"s", -1⟩] := by decide +kernel
  have hobtain : Obtainable (.expression ⟨[⟨"s", -1⟩]⟩) :=
    hreduce ▸ .ofTerm (.ofBase (Term.ofBase_eq_ok (by decide) (-1)))
  have hrender : Expression.render ⟨[⟨"s", -1⟩]⟩ = "1 / s" := by decide +kernel
  exact ⟨hterms ▸ hread _ hvalid, hobtain, hrender ▸ hexpression _ hobtain⟩

end UnitAlgebra
