import Mathlib.Data.List.Forall2
import UnitAlgebra.Proofs.Writing

/-!
# One expression for every shape of an operand

Terms may be given as they are, as a list in which each item is a term or a pair, or as a text. A
list converts item by item and keeps the order (`mapM_itemTerm_eq_ok`), a text reads back to its
terms without the neutral ones, and these do not matter for the canonical form. So all shapes give
the same expression, with its terms in the same order (`toExpression_shapes`).
-/

namespace UnitAlgebra

/-- A computation over a list succeeds when it does for each element, with the results in order. -/
theorem mapM_eq_ok_of_forall₂ {ε α β : Type} {f : α → Except ε β} {xs : List α} {ys : List β}
    (h : List.Forall₂ (fun x y => f x = .ok y) xs ys) : xs.mapM f = .ok ys := by
  induction h with
  | nil => rfl
  | cons hx _ ih =>
    rw [List.mapM_cons, hx, ih]
    rfl

namespace Operand

/-- An item of a list stands for a term when it is the term, or a pair of the base of the term with
a scalar that has the value of its exponent. -/
inductive ItemFor : Operand → Term → Prop
  /-- A term stands for itself. -/
  | term (t : Term) : ItemFor (.term t) t
  /-- A pair stands for the term of its base and the value of its scalar. -/
  | pair {t : Term} {x : Scalar} : x.value = .ok t.exponent → ItemFor (.pair t.base x) t

/-- A pair of a valid base and a scalar with a value is the term of the two. -/
theorem pairTerm_eq_ok {base : String} {x : Scalar} {r : Rat} (hbase : ValidBase base)
    (hx : x.value = .ok r) : pairTerm base x = .ok ⟨base, r⟩ := by
  rw [pairTerm, hx]
  exact Term.ofBase_eq_ok hbase r

/-- An item that stands for a term with a valid base converts to this term. -/
theorem ItemFor.itemTerm_eq_ok {x : Operand} {t : Term} (h : ItemFor x t)
    (ht : ValidBase t.base) : itemTerm x = .ok t := by
  cases h with
  | term => rfl
  | pair hvalue => exact pairTerm_eq_ok ht hvalue

/-- Items that stand for terms with valid bases convert to these terms, in their order. -/
theorem mapM_itemTerm_eq_ok {items : List Operand} {ts : List Term}
    (hitems : List.Forall₂ ItemFor items ts) (h : ∀ t ∈ ts, ValidBase t.base) :
    items.mapM itemTerm = .ok ts := by
  apply mapM_eq_ok_of_forall₂
  induction hitems with
  | nil => exact .nil
  | cons hx _ ih =>
    obtain ⟨ht, hts⟩ := List.forall_mem_cons.1 h
    exact .cons (hx.itemTerm_eq_ok ht) (ih hts)

/-- Terms with valid bases, a list of items that stand for them, and their text all give the
canonical form of the terms, in the same order. -/
theorem toExpression_shapes {ts : List Term} (h : ∀ t ∈ ts, ValidBase t.base) :
    (Operand.terms ts).toExpression = .ok ⟨Terms.reduce ts⟩ ∧
    (∀ items, List.Forall₂ ItemFor items ts →
      (Operand.list items).toExpression = .ok ⟨Terms.reduce ts⟩) ∧
    (Operand.text (Terms.render ts)).toExpression = .ok ⟨Terms.reduce ts⟩ := by
  refine ⟨rfl, fun items hitems => ?_, ?_⟩
  · have hterms : (Operand.list items).toTerms = .ok ts := mapM_itemTerm_eq_ok hitems h
    rw [toExpression_eq_map (by simp), hterms]
    rfl
  · rw [toExpression_text_of_read (Terms.read_render h), Terms.reduce_filter_isNeutral]

/-- A base that cancels, a neutral base and exponents of different kinds, as a list and as a
text. -/
theorem toExpression_shapes_mixed :
    (Operand.list [.term ⟨"s", -1⟩, .pair "1" (.integer 4), .pair "m" (.text " 0.5 "),
      .pair "s" (.rational 1), .pair "m" (.binary ⟨0x3FE0000000000000⟩)]).toExpression =
        .ok ⟨[⟨"m", 1⟩]⟩ ∧
    (Operand.text "1 / s * 1^4 * m^1/2 * s * m^1/2").toExpression = .ok ⟨[⟨"m", 1⟩]⟩ := by
  have hvalid : ∀ t ∈ [(⟨"s", -1⟩ : Term), ⟨"1", 4⟩, ⟨"m", 1/2⟩, ⟨"s", 1⟩, ⟨"m", 1/2⟩],
      ValidBase t.base := by decide +kernel
  have hreduce : Terms.reduce [⟨"s", -1⟩, ⟨"1", 4⟩, ⟨"m", 1/2⟩, ⟨"s", 1⟩, ⟨"m", 1/2⟩] =
      [⟨"m", 1⟩] := by decide +kernel
  have hrender : Terms.render [⟨"s", -1⟩, ⟨"1", 4⟩, ⟨"m", 1/2⟩, ⟨"s", 1⟩, ⟨"m", 1/2⟩] =
      "1 / s * 1^4 * m^1/2 * s * m^1/2" := by decide +kernel
  have hinteger : (Scalar.integer 4).value = .ok 4 := by decide +kernel
  have htext : (Scalar.text " 0.5 ").value = .ok (1/2) := by decide +kernel
  have hbinary : (Scalar.binary ⟨0x3FE0000000000000⟩).value = .ok (1/2) := by decide +kernel
  have hitems : List.Forall₂ ItemFor
      [.term ⟨"s", -1⟩, .pair "1" (.integer 4), .pair "m" (.text " 0.5 "),
        .pair "s" (.rational 1), .pair "m" (.binary ⟨0x3FE0000000000000⟩)]
      [⟨"s", -1⟩, ⟨"1", 4⟩, ⟨"m", 1/2⟩, ⟨"s", 1⟩, ⟨"m", 1/2⟩] :=
    .cons (.term _) (.cons (@ItemFor.pair ⟨"1", 4⟩ _ hinteger)
      (.cons (@ItemFor.pair ⟨"m", 1/2⟩ _ htext) (.cons (@ItemFor.pair ⟨"s", 1⟩ _ rfl)
        (.cons (@ItemFor.pair ⟨"m", 1/2⟩ _ hbinary) .nil))))
  obtain ⟨-, hlist, hwritten⟩ := toExpression_shapes hvalid
  rw [hreduce] at hlist hwritten
  rw [hrender] at hwritten
  exact ⟨hlist _ hitems, hwritten⟩

end Operand

end UnitAlgebra
