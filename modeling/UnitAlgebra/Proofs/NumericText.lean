import UnitAlgebra.Proofs.Conversion
import UnitAlgebra.Proofs.Number

/-!
# One number for every reading of a numeric text

A written fraction is a decimal, or two decimals with a slash between them, with blanks around each
(`Fraction.Written`). As a text of the notation of products it has the decimals for its bases: the
second one stands behind the slash, so the expression has the quotient for its numeric value
(`exists_number?_of_written`), also where a decimal is the neutral base or both are the same base.
Between parentheses it is an exponent, since it holds no parenthesis itself
(`read_enclosed`). So a number in the place of an exponent, a text in the same place, an exponent in
a text and the exponent of a pair all stand for the same rational (`readings_agree`).
-/

namespace UnitAlgebra

open UnitAlgebra.Text

/-! ## Decimals -/

namespace Decimal

/-- An unsigned decimal has at least one character, and digits and points only. -/
theorem isNumeral_of_magnitude?_eq_some {cs : List Char} {r : Rat} (h : magnitude? cs = some r) :
    cs ≠ [] ∧ ∀ c ∈ cs, Exponent.isNumeral c = true := by
  unfold magnitude? at h
  simp only at h
  split at h
  · next hdigits =>
    rw [Bool.and_eq_true, Bool.not_eq_true', List.isEmpty_eq_false_iff, List.all_eq_true] at hdigits
    obtain ⟨hne, hall⟩ := hdigits
    have hnumeral : ∀ c ∈ wholePart cs ++ fractionPart cs, Exponent.isNumeral c = true :=
      fun c hc => by simp [Exponent.isNumeral, hall c hc]
    have hcut := append_cut '.' cs
    unfold wholePart fractionPart at hne hnumeral
    -- the text is its digits, with the point between the two parts if there is one
    split at hcut
    · next before hbefore =>
      rw [hbefore, Option.getD_none, List.append_nil] at hne hnumeral
      rw [hcut]
      exact ⟨hne, hnumeral⟩
    · next before after hbefore =>
      rw [hbefore, Option.getD_some] at hnumeral
      obtain ⟨hwhole, hfraction⟩ := List.forall_mem_append.1 hnumeral
      have hpoint : Exponent.isNumeral '.' = true := by decide
      rw [hcut]
      exact ⟨by simp, List.forall_mem_append.2 ⟨hwhole, List.forall_mem_cons.2 ⟨hpoint, hfraction⟩⟩⟩
  · cases h

/-- A character of a number may stand in a base. -/
theorem isBaseChar_of_isNumeral {c : Char} (h : Exponent.isNumeral c = true) :
    isBaseChar c = true := by
  have hblank := Exponent.isBlank_eq_false_of_isNumeral h
  have hreserved : isReserved c = false := by
    rw [Bool.eq_false_iff]
    intro hc
    simp only [isReserved, Bool.or_eq_true, beq_iff_eq] at hc
    rcases hc with (((rfl | rfl) | rfl) | rfl) | rfl <;> revert h <;> decide
  rw [isBaseChar, hblank, hreserved]
  rfl

/-- A decimal is a valid base. -/
theorem validBase_of_read_eq_some {cs : List Char} {r : Rat} (h : read cs = some r) :
    ValidBase (String.ofList cs) := by
  have hsign : ∀ {sign : Char} {rest : List Char} {x : Rat}, isBaseChar sign = true →
      magnitude? rest = some x → ValidBase (String.ofList (sign :: rest)) := by
    intro sign rest x hsign hx
    obtain ⟨-, hall⟩ := isNumeral_of_magnitude?_eq_some hx
    rw [ValidBase, String.toList_ofList]
    exact ⟨by simp, List.forall_mem_cons.2 ⟨hsign, fun c hc => isBaseChar_of_isNumeral (hall c hc)⟩⟩
  unfold read at h
  split at h
  · obtain ⟨x, hx, -⟩ := Option.map_eq_some_iff.1 h
    exact hsign (by decide) hx
  · exact hsign (by decide) h
  · obtain ⟨hne, hall⟩ := isNumeral_of_magnitude?_eq_some h
    rw [ValidBase, String.toList_ofList]
    exact ⟨hne, fun c hc => isBaseChar_of_isNumeral (hall c hc)⟩

end Decimal

/-! ## Written fractions -/

namespace Text

/-- A text is its trimmed form with blanks on both sides. -/
theorem exists_append_trim_append (cs : List Char) :
    ∃ gap tail, cs = gap ++ (trim cs ++ tail) ∧ (∀ c ∈ gap, isBlank c = true) ∧
      ∀ c ∈ tail, isBlank c = true := by
  have hstart : cs.takeWhile isBlank ++ trimStart cs = cs := List.takeWhile_append_dropWhile
  have hend : trimStart cs =
      trim cs ++ ((trimStart cs).reverse.takeWhile isBlank).reverse := by
    have hreverse : (trimStart cs).reverse.takeWhile isBlank ++
        (trimStart cs).reverse.dropWhile isBlank = (trimStart cs).reverse :=
      List.takeWhile_append_dropWhile
    rw [trim, trimEnd, ← List.reverse_append, hreverse, List.reverse_reverse]
  refine ⟨cs.takeWhile isBlank, ((trimStart cs).reverse.takeWhile isBlank).reverse, ?_,
    fun c hc => of_mem_takeWhile hc, fun c hc => ?_⟩
  · rw [← hend, hstart]
  · exact of_mem_takeWhile (List.mem_reverse.1 hc)

end Text

namespace Fraction

/-- A written fraction with its value. -/
inductive Written : List Char → Rat → Prop
  /-- A decimal with blanks around it. -/
  | decimal {gap number tail : List Char} {r : Rat} : (∀ c ∈ gap, isBlank c = true) →
    Decimal.read number = some r → (∀ c ∈ tail, isBlank c = true) →
      Written (gap ++ (number ++ tail)) r
  /-- Two decimals with a slash between them and blanks around each; the second is not zero. -/
  | quotient {gap numerator before after denominator tail : List Char} {p q : Rat} :
    (∀ c ∈ gap, isBlank c = true) → Decimal.read numerator = some p →
    (∀ c ∈ before, isBlank c = true) → (∀ c ∈ after, isBlank c = true) →
    Decimal.read denominator = some q → (∀ c ∈ tail, isBlank c = true) → q ≠ 0 →
      Written (gap ++ (numerator ++ (before ++ '/' :: (after ++ (denominator ++ tail))))) (p / q)

/-- What is read as a fraction is a written fraction with this value. -/
theorem written_of_read_eq_some {cs : List Char} {r : Rat} (h : read cs = some r) :
    Written cs r := by
  obtain ⟨gap, tail, hcs, hgap, htail⟩ := exists_append_trim_append cs
  have hcut := append_cut '/' (trim cs)
  unfold read at h
  split at h
  · next numerator hnumerator =>
    rw [hnumerator] at hcut
    rw [hcs, hcut]
    exact .decimal hgap h htail
  · next numerator denominator hslash =>
    rw [hslash] at hcut
    split at h
    · next p q hp hq =>
      split at h
      · cases h
      · next hne =>
        cases h
        obtain ⟨front, before, hnumerator, hfront, hbefore⟩ := exists_append_trim_append numerator
        obtain ⟨after, back, hdenominator, hafter, hback⟩ := exists_append_trim_append denominator
        have hwritten := Written.quotient (List.forall_mem_append.2 ⟨hgap, hfront⟩) hp hbefore
          hafter hq (List.forall_mem_append.2 ⟨hback, htail⟩) hne
        have hshape : cs = gap ++ front ++ (trim numerator ++ (before ++ '/' ::
            (after ++ (trim denominator ++ (back ++ tail))))) := by
          conv_lhs => rw [hcs, hcut]
          simp only
          conv_lhs => rw [hnumerator, hdenominator]
          simp only [List.append_assoc, List.cons_append]
        rwa [← hshape] at hwritten
    · cases h

/-- A written fraction has no other characters than blanks, those of a base and the slash. -/
theorem Written.notMem {c : Char} {cs : List Char} {r : Rat} (h : Written cs r)
    (hblank : isBlank c = false) (hbase : isBaseChar c = false) (hslash : c ≠ '/') : c ∉ cs := by
  have hgap : ∀ {ds : List Char}, (∀ d ∈ ds, isBlank d = true) → c ∉ ds :=
    fun hds hmem => ne_of_class (hds c hmem) hblank rfl
  have hdecimal : ∀ {ds : List Char} {x : Rat}, Decimal.read ds = some x → c ∉ ds := by
    intro ds x hx hmem
    have hvalid := (Decimal.validBase_of_read_eq_some hx).2
    rw [String.toList_ofList] at hvalid
    exact ne_of_class (hvalid c hmem) hbase rfl
  cases h with
  | decimal hfront hr hback => simp [hgap hfront, hdecimal hr, hgap hback]
  | quotient hfront hp hbefore hafter hq hback _ =>
    simp [hgap hfront, hdecimal hp, hgap hbefore, hslash, hgap hafter, hdecimal hq, hgap hback]

end Fraction

/-! ## The value as an expression -/

namespace Terms

/-- The value of a numeric base with exponent one is the number that it writes. -/
theorem number?_reduce_single {base : String} {r : Rat} (h : Decimal.read base.toList = some r) :
    number? (reduce [⟨base, 1⟩]) = some r := by
  have hnumeric : ∀ t ∈ [(⟨base, 1⟩ : Term)], t.IsNumeric :=
    List.forall_mem_singleton.2 (Term.isNumeric_of_read h rfl)
  have htotal : total base [⟨base, 1⟩] = 1 := by
    rw [total_cons, total_nil, if_pos rfl, add_zero]
  have hnumber : number [⟨base, 1⟩] = r := by
    simp [number, powers, baseValue, h]
  rw [number?_reduce hnumeric (by simp) (by simp [htotal, largestExponent]), hnumber]

/-- The value of a numeric base over another is the quotient of the numbers that they write, also
where both are the same base. -/
theorem number?_reduce_over {b c : String} {p q : Rat} (hp : Decimal.read b.toList = some p)
    (hq : Decimal.read c.toList = some q) (hne : q ≠ 0) :
    number? (reduce [⟨b, 1⟩, ⟨c, -1⟩]) = some (p / q) := by
  have hnumeric : ∀ t ∈ [(⟨b, 1⟩ : Term), ⟨c, -1⟩], t.IsNumeric :=
    List.forall_mem_cons.2 ⟨Term.isNumeric_of_read hp rfl,
      List.forall_mem_singleton.2 (Term.isNumeric_of_read hq rfl)⟩
  have hnonneg : ∀ t ∈ [(⟨b, 1⟩ : Term), ⟨c, -1⟩], t.hasZeroBase = true → 0 ≤ t.exponent := by
    refine List.forall_mem_cons.2 ⟨fun _ => by simp, List.forall_mem_singleton.2 fun hzero => ?_⟩
    -- the base that divides is not zero
    rw [Term.hasZeroBase, hq, beq_iff_eq] at hzero
    exact absurd (Option.some.inj hzero) hne
  have htotal : ∀ base, (total base [⟨b, 1⟩, ⟨c, -1⟩]).num.natAbs ≤ largestExponent := by
    intro base
    rw [total_cons, total_cons, total_nil]
    dsimp only
    split_ifs <;> decide +kernel
  have hnumber : number [⟨b, 1⟩, ⟨c, -1⟩] = p / q := by
    simp [number, powers, baseValue, hp, hq, div_eq_mul_inv]
  rw [number?_reduce hnumeric hnonneg fun t _ => htotal t.base, hnumber]

end Terms

/-- A text made up of lexemes that form a product has the canonical form of its terms for its
expression. -/
theorem Operand.toExpression_of_product {s : String} {xs : List Lexeme} {tail : List Char}
    {all : List Term} (htext : s.toList = xs.flatMap Lexeme.source ++ tail)
    (hscanned : Lexeme.Scanned false xs tail)
    (hproduct : Grammar.Product (xs.map Lexeme.symbol) all) :
    (Operand.text s).toExpression = .ok ⟨Terms.reduce all⟩ := by
  rw [toExpression_text_of_read (Terms.read_of_product htext hscanned hproduct),
    Terms.reduce_filter_isNeutral]

namespace Fraction

/-- Blanks in front of what ends a base end it as well. -/
theorem isBaseChar_head_eq_false {gap rest : List Char} (hgap : ∀ c ∈ gap, isBlank c = true)
    (hrest : ∀ c ∈ rest.head?, isBaseChar c = false) :
    ∀ c ∈ (gap ++ rest).head?, isBaseChar c = false := by
  cases gap with
  | nil => exact hrest
  | cons d gap =>
    have hd : isBlank d = true := hgap d (by simp)
    simp [isBaseChar, hd]

/-- A written fraction is the text of an expression that has its value. -/
theorem exists_number?_of_written {s : String} {r : Rat} (h : Written s.toList r) :
    ∃ e, (Operand.text s).toExpression = .ok e ∧ e.number? = some r := by
  -- the decimals are the lexemes of bases, since a blank, a slash or the end stops each of them
  have hend : ∀ {tail : List Char}, (∀ c ∈ tail, isBlank c = true) →
      ∀ c ∈ tail.head?, isBaseChar c = false := by
    intro tail htail
    rw [← List.append_nil tail]
    exact isBaseChar_head_eq_false htail (by simp)
  generalize hs : s.toList = cs at h
  cases h with
  | @decimal gap number tail _ hgap hr htail =>
    have hscanned : Lexeme.Scanned false
        [⟨gap, (String.ofList number).toList, .base (String.ofList number)⟩] tail :=
      .cons (.base hgap (Decimal.validBase_of_read_eq_some hr) (hend htail)) (.nil htail)
    have hexpression := @Operand.toExpression_of_product s _ _ _ (by simp [hs, Lexeme.source])
      hscanned (.plain (.bare _) .nil)
    exact ⟨_, hexpression, Terms.number?_reduce_single (by rwa [String.toList_ofList])⟩
  | @quotient gap numerator before after denominator tail p q hgap hp hbefore hafter hq htail hne =>
    have hslash : ∀ c ∈ ('/' :: (after ++ (denominator ++ tail))).head?, isBaseChar c = false := by
      have hreserved : isBaseChar '/' = false := by decide
      simpa using hreserved
    have hscanned : Lexeme.Scanned false
        [⟨gap, (String.ofList numerator).toList, .base (String.ofList numerator)⟩,
          ⟨before, ['/'], .slash⟩,
          ⟨after, (String.ofList denominator).toList, .base (String.ofList denominator)⟩] tail := by
      refine .cons (.base hgap (Decimal.validBase_of_read_eq_some hp) ?_)
        (.cons (.operator hbefore rfl)
          (.cons (.base hafter (Decimal.validBase_of_read_eq_some hq) (hend htail)) (.nil htail)))
      simpa [Lexeme.source] using isBaseChar_head_eq_false hbefore hslash
    have hexpression := @Operand.toExpression_of_product s _ _ _ (by simp [hs, Lexeme.source])
      hscanned (.plain (.bare _) (.slash (.bare _) .nil))
    exact ⟨_, hexpression, Terms.number?_reduce_over (by rwa [String.toList_ofList])
      (by rwa [String.toList_ofList]) hne⟩

/-! ## The value as an exponent -/

/-- A written fraction between parentheses is read as an exponent. -/
theorem read_enclosed {cs : List Char} {r : Rat} (h : read cs = some r) (rest : List Char) :
    Exponent.read ('(' :: cs ++ [')'] ++ rest) = .ok ('(' :: cs ++ [')'], r, rest) := by
  have hcut : cut ')' (cs ++ ')' :: rest) = (cs, some rest) :=
    cut_append rest ((written_of_read_eq_some h).notMem (by decide) (by decide) (by decide))
  have henclosed : Exponent.read ('(' :: cs ++ [')'] ++ rest) =
      Exponent.readEnclosed (cs ++ ')' :: rest) := by
    rw [List.cons_append, List.cons_append, List.append_assoc]
    rfl
  rw [henclosed, Exponent.readEnclosed, hcut]
  simp only [h]

/-- A base with a written fraction between parentheses for its exponent is read as one term. -/
theorem read_raised {base s : String} {r : Rat} (hbase : ValidBase base) (hne : base ≠ "1")
    (h : read s.toList = some r) : Terms.read (base ++ "^(" ++ s ++ ")") = .ok [⟨base, r⟩] := by
  have hexponent := read_enclosed h []
  have hscanned : Lexeme.Scanned false
      [⟨[], base.toList, .base base⟩, ⟨[], ['^'], .caret⟩,
        ⟨[], '(' :: s.toList ++ [')'], .exponent r⟩] [] := by
    refine .cons (.base (by simp) hbase ?_) (.cons (.operator (by simp) rfl)
      (.cons (.exponent (by simp) hexponent) (.nil (by simp))))
    have hcaret : isBaseChar '^' = false := by decide
    simpa [Lexeme.source] using hcaret
  have hread := @Terms.read_of_product (base ++ "^(" ++ s ++ ")") _ _ _
    (by simp [Lexeme.source]) hscanned (.plain (.raised base r) .nil)
  simpa [Term.isNeutral, hne] using hread

end Fraction

/-- A text of a fraction stands for one number in all places: as a number and as a text in the place
of an exponent, as the exponent of a base in a text, and as the exponent of a pair. -/
theorem readings_agree {s : String} {r : Rat} (h : Fraction.read s.toList = some r) :
    (∀ (x : Operand) (a : Expression), x.toExpression = .ok a →
      x.power (.number (.text s)) = .ok (a.pow r) ∧ x.power (.text s) = .ok (a.pow r)) ∧
    (∃ e, (Operand.text s).toExpression = .ok e ∧ e.number? = some r) ∧
    ∀ base, ValidBase base → base ≠ "1" →
      Terms.read (base ++ "^(" ++ s ++ ")") = .ok [⟨base, r⟩] ∧
      (Operand.pair base (.text s)).toTerms = .ok [⟨base, r⟩] := by
  have hvalue : (Scalar.text s).value = .ok r := by
    simp only [Scalar.value, h]
  have hnumber := Fraction.exists_number?_of_written (Fraction.written_of_read_eq_some h)
  have hexponent : Expression.exponentValue (.text s) = .ok r :=
    (Expression.exponentValue_eq_ok_iff (by simp)).2 hnumber
  refine ⟨fun x a hx => ⟨Operand.power_eq_ok hx hvalue, Operand.power_eq_ok hx hexponent⟩, hnumber,
    fun base hbase hne => ⟨Fraction.read_raised hbase hne h, ?_⟩⟩
  rw [Operand.toTerms, Operand.pairTerm_eq_ok hbase hvalue]
  rfl

/-- A fraction with the neutral base for its numerator, a signed denominator and blanks. -/
theorem readings_agree_signed :
    Fraction.read " 1 / -0.50 ".toList = some (-2) ∧
    (Operand.term ⟨"m", 3⟩).power (.number (.text " 1 / -0.50 ")) = .ok ⟨[⟨"m", -6⟩]⟩ ∧
    (Operand.term ⟨"m", 3⟩).power (.text " 1 / -0.50 ") = .ok ⟨[⟨"m", -6⟩]⟩ ∧
    Terms.read "s^( 1 / -0.50 )" = .ok [⟨"s", -2⟩] ∧
    (Operand.pair "s" (.text " 1 / -0.50 ")).toTerms = .ok [⟨"s", -2⟩] := by
  have hread : Fraction.read " 1 / -0.50 ".toList = some (-2) := by decide +kernel
  have hbase : ValidBase "s" := by decide +kernel
  have hterms : ((Expression.ofTerms [⟨"m", 3⟩]).pow (-2)).terms = [⟨"m", -6⟩] := by decide +kernel
  have hpow : (Expression.ofTerms [⟨"m", 3⟩]).pow (-2) = ⟨[⟨"m", -6⟩]⟩ :=
    congrArg Expression.mk hterms
  obtain ⟨hpower, -, hraised⟩ := readings_agree hread
  obtain ⟨hnumber, htext⟩ := hpower (.term ⟨"m", 3⟩) _ rfl
  rw [hpow] at hnumber htext
  exact ⟨hread, hnumber, htext, hraised "s" hbase (by decide)⟩

end UnitAlgebra
