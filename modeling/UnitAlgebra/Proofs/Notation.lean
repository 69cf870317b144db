import UnitAlgebra.Proofs.Writing

/-!
# The standard notation

`standard` writes the terms of an operand as they are, so it fails exactly as the operand fails to
convert. The standard notation of any operand converts to the same expression as the operand, with
its terms in the same order (`IsSound.toExpression_standard`): the text reads back to the terms
without the neutral ones, and these do not matter for the canonical form. A text has no neutral
terms to lose, so its standard notation reads back to all of its terms (`read_render_of_read`).
Hence two texts have one notation exactly when they have the same terms (`standard_text_eq_iff`),
and the notation of a notation is the notation itself (`standard_of_standard`).
-/

namespace UnitAlgebra

/-- Two computations that fail alike succeed alike. -/
theorem exists_ok_iff_of_error_iff {ε α β : Type} {x : Except ε α} {y : Except ε β}
    (h : ∀ e, x = .error e ↔ y = .error e) : (∃ a, x = .ok a) ↔ ∃ b, y = .ok b := by
  cases x with
  | error e => simp [(h e).1 rfl]
  | ok a =>
    cases y with
    | error e => cases (h e).2 rfl
    | ok b => simp

/-- The terms that are read from a text are read from their own text. -/
theorem Terms.read_render_of_read {text : String} {ts : List Term} (h : read text = .ok ts) :
    read (render ts) = .ok ts := by
  have hfilter : ts.filter (fun t => !t.isNeutral) = ts :=
    List.filter_eq_self.2 fun t ht => by simp [isNeutral_of_mem_read h t ht]
  rw [read_render (validBase_of_mem_read h), hfilter]

namespace Operand

/-- The standard notation fails exactly as the conversion to an expression. -/
theorem standard_eq_error_iff {x : Operand} {f : Failure} :
    x.standard = .error f ↔ x.toExpression = .error f := by
  rw [standard, map_eq_error_iff, toExpression_eq_error_iff_toTerms]

/-- The standard notation of a sound operand converts to the expression of the operand. -/
theorem IsSound.toExpression_standard {x : Operand} (hx : x.IsSound) {s : String}
    (h : x.standard = .ok s) : ∃ e, x.toExpression = .ok e ∧ (text s).toExpression = .ok e := by
  obtain ⟨ts, hts, rfl⟩ := map_eq_ok_iff.1 h
  by_cases hexp : ∃ e, x = .expression e
  · -- an expression is not brought into canonical form again
    obtain ⟨e, rfl⟩ := hexp
    cases hts
    exact ⟨e, rfl, (hx.expression e rfl).toExpression_render⟩
  · have hconverts : x.toExpression = .ok ⟨Terms.reduce ts⟩ := by
      rw [toExpression_eq_map fun e he => hexp ⟨e, he⟩, hts]
      rfl
    have hread : Terms.read (Terms.render ts) = .ok (ts.filter fun t => !t.isNeutral) :=
      Terms.read_render (hx.validBase ts hts)
    refine ⟨_, hconverts, ?_⟩
    rw [toExpression_text_of_read hread, Terms.reduce_filter_isNeutral]

/-- The standard notation of a text is the text of its terms. -/
theorem standard_text_eq_ok_iff {s r : String} :
    (text s).standard = .ok r ↔ ∃ ts, Terms.read s = .ok ts ∧ Terms.render ts = r :=
  map_eq_ok_iff

/-- The standard notation of a text is its own standard notation. -/
theorem standard_of_standard {s r : String} (h : (text s).standard = .ok r) :
    (text r).standard = .ok r := by
  obtain ⟨ts, hts, rfl⟩ := standard_text_eq_ok_iff.1 h
  exact standard_text_eq_ok_iff.2 ⟨ts, Terms.read_render_of_read hts, rfl⟩

/-- Texts have the same standard notation exactly when they are read alike. -/
theorem standard_text_eq_iff {s t : String} :
    (text s).standard = (text t).standard ↔ Terms.read s = Terms.read t := by
  refine ⟨fun h => ?_, fun h => congrArg (·.map Terms.render) h⟩
  cases hs : (text s).standard with
  | error f =>
    have hreads : Terms.read s = .error f := map_eq_error_iff.1 hs
    have hreadt : Terms.read t = .error f := map_eq_error_iff.1 (h ▸ hs)
    rw [hreads, hreadt]
  | ok r =>
    obtain ⟨ts, hts, hr⟩ := standard_text_eq_ok_iff.1 hs
    obtain ⟨us, hus, hr'⟩ := standard_text_eq_ok_iff.1 (h ▸ hs)
    -- the notation that both have reads back to the terms of each
    have hread := Terms.read_render_of_read hts
    rw [hr, ← hr', Terms.read_render_of_read hus] at hread
    rw [hts, hus, hread]

end Operand

open Operand

/-- An operand has a standard notation exactly when it converts to an expression, and fails with the
same failure otherwise. The notation converts to the expression of the operand, with its terms in
the same order. Two texts have the same notation exactly when they are read alike, and a notation
is its own notation. -/
theorem standard_notation :
    (∀ x : Operand, ((∃ s, x.standard = .ok s) ↔ ∃ e, x.toExpression = .ok e) ∧
      ∀ f, x.standard = .error f ↔ x.toExpression = .error f) ∧
    (∀ x : Operand, Obtainable (.operand x) → ∀ s, x.standard = .ok s →
      ∃ e, x.toExpression = .ok e ∧ (Operand.text s).toExpression = .ok e) ∧
    (∀ s t : String,
      (Operand.text s).standard = (Operand.text t).standard ↔ Terms.read s = Terms.read t) ∧
    ∀ s r : String, (Operand.text s).standard = .ok r → (Operand.text r).standard = .ok r := by
  refine ⟨fun x => ⟨?_, fun f => standard_eq_error_iff⟩, fun x hx s hs => ?_,
    fun s t => standard_text_eq_iff, fun s r hs => standard_of_standard hs⟩
  · exact exists_ok_iff_of_error_iff fun f => standard_eq_error_iff
  · have hsound : x.IsSound := hx.isSound
    exact hsound.toExpression_standard hs

/-- A list with a neutral term, a zero exponent and a base that occurs twice, and a text with an
exponent in parentheses. -/
theorem standard_notation_mixed :
    (Operand.list [.pair "m" (.text " 0.5 "), .term ⟨"1", 4⟩, .pair "s" (.integer (-1)),
      .term ⟨"kg", 0⟩, .pair "m" (.rational (1/2))]).standard =
        .ok "m^1/2 * 1^4 / s * kg^0 * m^1/2" ∧
    (Operand.text "m^1/2 * 1^4 / s * kg^0 * m^1/2").toExpression =
      .ok ⟨[⟨"m", 1⟩, ⟨"s", -1⟩]⟩ ∧
    (Operand.text " m*m^-1/s^(2)").standard = .ok "m / m / s^2" ∧
    (Operand.text "m / m / s^2").standard = .ok "m / m / s^2" := by
  have hone : Obtainable (.term ⟨"1", 4⟩) := .ofBase (Term.ofBase_eq_ok (by decide) 4)
  have hkg : Obtainable (.term ⟨"kg", 0⟩) := .ofBase (Term.ofBase_eq_ok (by decide) 0)
  have hobtain : Obtainable (.operand (.list [.pair "m" (.text " 0.5 "), .term ⟨"1", 4⟩,
      .pair "s" (.integer (-1)), .term ⟨"kg", 0⟩, .pair "m" (.rational (1/2))])) :=
    .list (List.forall_mem_cons.2 ⟨.pair _ _, List.forall_mem_cons.2 ⟨.term hone,
      List.forall_mem_cons.2 ⟨.pair _ _, List.forall_mem_cons.2 ⟨.term hkg,
        List.forall_mem_singleton.2 (.pair _ _)⟩⟩⟩⟩)
  have hlist : (Operand.list [.pair "m" (.text " 0.5 "), .term ⟨"1", 4⟩,
      .pair "s" (.integer (-1)), .term ⟨"kg", 0⟩, .pair "m" (.rational (1/2))]).standard =
        .ok "m^1/2 * 1^4 / s * kg^0 * m^1/2" := by decide +kernel
  have hterms : (Operand.list [.pair "m" (.text " 0.5 "), .term ⟨"1", 4⟩,
      .pair "s" (.integer (-1)), .term ⟨"kg", 0⟩, .pair "m" (.rational (1/2))]).toTerms =
        .ok [⟨"m", 1/2⟩, ⟨"1", 4⟩, ⟨"s", -1⟩, ⟨"kg", 0⟩, ⟨"m", 1/2⟩] := by decide +kernel
  have hreduce : Terms.reduce [⟨"m", 1/2⟩, ⟨"1", 4⟩, ⟨"s", -1⟩, ⟨"kg", 0⟩, ⟨"m", 1/2⟩] =
      [⟨"m", 1⟩, ⟨"s", -1⟩] := by decide +kernel
  have htext : (Operand.text " m*m^-1/s^(2)").standard = .ok "m / m / s^2" := by decide +kernel
  obtain ⟨-, hconverts, -, hnotation⟩ := standard_notation
  obtain ⟨e, he, hstandard⟩ := hconverts _ hobtain _ hlist
  rw [toExpression_eq_map (by simp), hterms] at he
  obtain rfl : Expression.mk (Terms.reduce _) = e := Except.ok.inj he
  rw [hreduce] at hstandard
  exact ⟨hlist, hstandard, htext, hnotation _ _ htext⟩

end UnitAlgebra
