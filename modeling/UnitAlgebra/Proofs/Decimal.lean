import Mathlib.Tactic.FieldSimp
import UnitAlgebra.Proofs.NumericText

/-!
# The spelling of decimals and fractions

`Decimal.Denotes` says which texts are decimals and what number each of them denotes: a sign or
none, and digits with at most one point among them, where the digits after the point count as a
fraction. `Fraction.Denotes` says the same of a decimal or of two decimals with a slash and blanks
between them. Both are about the text alone. `Decimal.read_eq_some_iff` and
`Fraction.read_eq_some_iff` say that reading accepts exactly these texts, a fraction with blanks on
both sides, and gives the numbers that they denote. `numerals_read_exactly` divides the text of a
quotient at its first slash and adds that every number reads back from its own text. -/

namespace UnitAlgebra

open UnitAlgebra.Text

/-! ## Decimals -/

namespace Decimal

/-- An unsigned decimal and the number that it denotes: digits, and possibly a point with digits on
at least one of its sides. -/
inductive Unsigned : List Char → Rat → Prop
  /-- Digits alone denote a whole number. -/
  | whole {digits : List Char} : digits ≠ [] → (∀ c ∈ digits, c.isDigit = true) →
    Unsigned digits (Nat.ofDigitChars 10 digits 0)
  /-- The digits after the point count as many places as there are of them. -/
  | pointed {digits places : List Char} : digits ≠ [] ∨ places ≠ [] →
    (∀ c ∈ digits, c.isDigit = true) → (∀ c ∈ places, c.isDigit = true) →
      Unsigned (digits ++ '.' :: places)
        (Nat.ofDigitChars 10 digits 0 + Nat.ofDigitChars 10 places 0 / 10 ^ places.length)

/-- A decimal and the number that it denotes: at most one sign, and an unsigned decimal. -/
inductive Denotes : List Char → Rat → Prop
  /-- No sign. -/
  | unsigned {cs : List Char} {r : Rat} : Unsigned cs r → Denotes cs r
  /-- A plus sign. -/
  | plus {cs : List Char} {r : Rat} : Unsigned cs r → Denotes ('+' :: cs) r
  /-- A minus sign turns the number over. -/
  | minus {cs : List Char} {r : Rat} : Unsigned cs r → Denotes ('-' :: cs) (-r)

/-- The point is no digit. -/
theorem notMem_of_isDigit {digits : List Char} (h : ∀ c ∈ digits, c.isDigit = true) :
    '.' ∉ digits := by
  intro hmem
  have hdigit := h '.' hmem
  revert hdigit
  decide

/-- The digits of both sides of a point, as one number over a power of ten, are the number that the
two sides denote. -/
theorem ofDigitChars_append_div (digits places : List Char) :
    (Nat.ofDigitChars 10 (digits ++ places) 0 : Rat) / 10 ^ places.length =
      Nat.ofDigitChars 10 digits 0 + Nat.ofDigitChars 10 places 0 / 10 ^ places.length := by
  have hjoin : Nat.ofDigitChars 10 (digits ++ places) 0 =
      10 ^ places.length * Nat.ofDigitChars 10 digits 0 + Nat.ofDigitChars 10 places 0 := by
    rw [Nat.ofDigitChars_append, Nat.ofDigitChars_eq_ofDigitChars_zero]
  have hpow : (10 : Rat) ^ places.length ≠ 0 := pow_ne_zero _ (by norm_num)
  rw [hjoin]
  push_cast
  field_simp

/-- The unsigned decimals are what has a magnitude. -/
theorem magnitude?_eq_some_iff {cs : List Char} {r : Rat} :
    magnitude? cs = some r ↔ Unsigned cs r := by
  constructor
  · intro h
    have hcut := append_cut '.' cs
    unfold magnitude? wholePart fractionPart at h
    simp only at h
    split at h
    · next hdigits =>
      rw [Bool.and_eq_true, Bool.not_eq_true', List.isEmpty_eq_false_iff, List.all_eq_true]
        at hdigits
      obtain ⟨hne, hall⟩ := hdigits
      obtain rfl := Option.some.inj h
      -- with a point or without one
      split at hcut
      · next before hbefore =>
        rw [hbefore] at hne hall ⊢
        simp only [Option.getD_none, List.append_nil] at hne hall ⊢
        rw [hcut]
        have hwhole := Unsigned.whole hne hall
        simpa using hwhole
      · next before after hbefore =>
        rw [hbefore] at hne hall ⊢
        simp only [Option.getD_some] at hne hall ⊢
        rw [hcut, ofDigitChars_append_div]
        obtain ⟨hbeforeDigits, hafterDigits⟩ := List.forall_mem_append.1 hall
        refine .pointed ?_ hbeforeDigits hafterDigits
        rwa [← not_and_or, ← List.append_eq_nil_iff]
    · cases h
  · intro h
    cases h with
    | whole hne hall =>
      have hcut := cut_of_notMem (notMem_of_isDigit hall)
      have hall' := List.all_eq_true.2 hall
      simp [magnitude?, wholePart, fractionPart, hcut, hne, hall']
    | @pointed digits places hne hdigits hplaces =>
      have hcut := cut_append places (notMem_of_isDigit hdigits)
      have hne' : digits ++ places ≠ [] := by rwa [ne_eq, List.append_eq_nil_iff, not_and_or]
      have hall := List.all_eq_true.2 (List.forall_mem_append.2 ⟨hdigits, hplaces⟩)
      have hempty : (digits ++ places).isEmpty = false := List.isEmpty_eq_false_iff.2 hne'
      simp only [magnitude?, wholePart, fractionPart, hcut, Option.getD_some, hempty, hall,
        Bool.not_false, Bool.and_self, if_true, ofDigitChars_append_div]

/-- An unsigned decimal has no sign. -/
theorem Unsigned.ne_sign {cs : List Char} {r : Rat} (h : Unsigned cs r) {c : Char}
    (hc : Exponent.isNumeral c = false) (more : List Char) : cs ≠ c :: more := by
  rintro rfl
  obtain ⟨-, hall⟩ := isNumeral_of_magnitude?_eq_some (magnitude?_eq_some_iff.2 h)
  exact ne_of_class (hall c (by simp)) hc rfl

/-- Exactly the decimals are read, with the numbers that they denote. -/
theorem read_eq_some_iff {cs : List Char} {r : Rat} : read cs = some r ↔ Denotes cs r := by
  constructor
  · intro h
    unfold read at h
    split at h
    · obtain ⟨x, hx, rfl⟩ := Option.map_eq_some_iff.1 h
      exact .minus (magnitude?_eq_some_iff.1 hx)
    · exact .plus (magnitude?_eq_some_iff.1 h)
    · exact .unsigned (magnitude?_eq_some_iff.1 h)
  · intro h
    cases h with
    | unsigned hcs =>
      unfold read
      split
      · exact absurd rfl (hcs.ne_sign (by decide) _)
      · exact absurd rfl (hcs.ne_sign (by decide) _)
      · exact magnitude?_eq_some_iff.2 hcs
    | plus hcs => exact magnitude?_eq_some_iff.2 hcs
    | minus hcs => rw [read, magnitude?_eq_some_iff.2 hcs, Option.map_some]

/-- A decimal has at least one character, and base characters only. -/
theorem Denotes.validBase {cs : List Char} {r : Rat} (h : Denotes cs r) :
    cs ≠ [] ∧ ∀ c ∈ cs, isBaseChar c = true := by
  have hvalid := validBase_of_read_eq_some (read_eq_some_iff.2 h)
  rwa [ValidBase, String.toList_ofList] at hvalid

end Decimal

/-! ## Fractions -/

namespace Text

/-- Blanks around a text are trimmed off, if the text itself neither starts nor ends with one. -/
theorem trim_append_append {gap cs tail : List Char} (hgap : ∀ c ∈ gap, isBlank c = true)
    (hhead : ∀ c ∈ cs.head?, isBlank c = false) (hlast : ∀ c ∈ cs.getLast?, isBlank c = false)
    (htail : ∀ c ∈ tail, isBlank c = true) : trim (gap ++ (cs ++ tail)) = cs := by
  have hreverse : ∀ c ∈ tail.reverse, isBlank c = true :=
    fun c hc => htail c (List.mem_reverse.1 hc)
  cases hcs : cs with
  | nil =>
    have hblank : ∀ c ∈ gap ++ tail, isBlank c = true := List.forall_mem_append.2 ⟨hgap, htail⟩
    rw [List.nil_append, trim, trimStart, List.dropWhile_eq_nil_iff.2 hblank]
    rfl
  | cons c more =>
    have hstart : trimStart (gap ++ (cs ++ tail)) = cs ++ tail :=
      dropWhile_run hgap (by simpa [hcs] using hhead)
    have hend : trimEnd (cs ++ tail) = cs := by
      rw [trimEnd, List.reverse_append, dropWhile_run hreverse (by simpa using hlast),
        List.reverse_reverse]
    rw [← hcs, trim, hstart, hend]

end Text

namespace Fraction

/-- A fraction and the number that it denotes, without blanks around it. -/
inductive Denotes : List Char → Rat → Prop
  /-- A decimal. -/
  | decimal {number : List Char} {r : Rat} : Decimal.Denotes number r → Denotes number r
  /-- Two decimals with a slash between them, and blanks on both sides of the slash. The second is
  not zero. -/
  | quotient {numerator before after denominator : List Char} {p q : Rat} :
    Decimal.Denotes numerator p → (∀ c ∈ before, isBlank c = true) →
    (∀ c ∈ after, isBlank c = true) → Decimal.Denotes denominator q → q ≠ 0 →
      Denotes (numerator ++ (before ++ '/' :: (after ++ denominator))) (p / q)

/-- A decimal has no blank and no slash. -/
theorem class_of_mem_decimal {cs : List Char} {r : Rat} (h : Decimal.Denotes cs r) {c : Char}
    (hc : c ∈ cs) : isBlank c = false ∧ c ≠ '/' := by
  have hbase : isBaseChar c = true := h.validBase.2 c hc
  exact ⟨(Lexeme.class_of_isBaseChar hbase).1, ne_of_class hbase (by decide)⟩

/-- A fraction has at least one character, and it starts and ends with no blank. -/
theorem Denotes.ends {cs : List Char} {r : Rat} (h : Denotes cs r) :
    cs ≠ [] ∧ (∀ c ∈ cs.head?, isBlank c = false) ∧ ∀ c ∈ cs.getLast?, isBlank c = false := by
  cases h with
  | decimal hr =>
    exact ⟨hr.validBase.1, fun c hc => (class_of_mem_decimal hr (List.mem_of_mem_head? hc)).1,
      fun c hc => (class_of_mem_decimal hr (List.mem_of_mem_getLast? hc)).1⟩
  | @quotient numerator before after denominator p q hp _ _ hq _ =>
    obtain ⟨d, ds, hnumerator⟩ := List.exists_cons_of_ne_nil hp.validBase.1
    obtain ⟨init, e, hdenominator⟩ :=
      (List.eq_nil_or_concat denominator).resolve_left hq.validBase.1
    have hd : isBlank d = false := (class_of_mem_decimal hp (by simp [hnumerator])).1
    have he : isBlank e = false := (class_of_mem_decimal hq (by simp [hdenominator])).1
    have hlast : numerator ++ (before ++ '/' :: (after ++ denominator)) =
        numerator ++ before ++ '/' :: (after ++ init) ++ [e] := by simp [hdenominator]
    refine ⟨by simp, ?_, ?_⟩
    · simpa [hnumerator] using hd
    · rw [hlast, List.getLast?_concat]
      simpa using he

/-- Exactly the fractions with blanks around them are read, with the numbers that they denote. -/
theorem read_eq_some_iff {cs : List Char} {r : Rat} : read cs = some r ↔ Denotes (trim cs) r := by
  constructor
  · intro h
    cases written_of_read_eq_some h with
    | decimal hgap hr htail =>
      have hdenotes := Denotes.decimal (Decimal.read_eq_some_iff.1 hr)
      obtain ⟨-, hhead, hlast⟩ := hdenotes.ends
      rwa [trim_append_append hgap hhead hlast htail]
    | @quotient gap numerator before after denominator tail p q hgap hp hbefore hafter hq htail
        hne =>
      have hdenotes := Denotes.quotient (Decimal.read_eq_some_iff.1 hp) hbefore hafter
        (Decimal.read_eq_some_iff.1 hq) hne
      obtain ⟨-, hhead, hlast⟩ := hdenotes.ends
      have htrim := trim_append_append hgap hhead hlast htail
      simp only [List.append_assoc, List.cons_append] at htrim
      rwa [htrim]
  · intro h
    have hdecimal : ∀ (gap number tail : List Char) {x : Rat}, (∀ c ∈ gap, isBlank c = true) →
        Decimal.Denotes number x → (∀ c ∈ tail, isBlank c = true) →
          Decimal.read (trim (gap ++ (number ++ tail))) = some x := by
      intro gap number tail x hgap hx htail
      obtain ⟨-, hhead, hlast⟩ := (Denotes.decimal hx).ends
      rw [trim_append_append hgap hhead hlast htail]
      exact Decimal.read_eq_some_iff.2 hx
    unfold read
    generalize trim cs = inner at h
    cases h with
    | decimal hr =>
      have hslash : '/' ∉ inner := fun hmem => (class_of_mem_decimal hr hmem).2 rfl
      rw [cut_of_notMem hslash]
      exact Decimal.read_eq_some_iff.2 hr
    | @quotient numerator before after denominator p q hp hbefore hafter hq hne =>
      have hslash : '/' ∉ numerator ++ before := by
        rw [List.mem_append, not_or]
        refine ⟨fun hmem => (class_of_mem_decimal hp hmem).2 rfl, fun hmem => ?_⟩
        exact ne_of_class (hbefore _ hmem) (by decide) rfl
      have hnumerator : Decimal.read (trim (numerator ++ before)) = some p :=
        hdecimal [] numerator before (by simp) hp hbefore
      have hdenominator : Decimal.read (trim (after ++ denominator)) = some q := by
        have hq' := hdecimal after denominator [] hafter hq (by simp)
        rwa [List.append_nil] at hq'
      rw [← List.append_assoc, cut_append _ hslash]
      simp only [hnumerator, hdenominator, if_neg hne]

/-- What is read is a decimal, or has a decimal on each side of its first slash. Blanks may stand
around the whole and around both sides. -/
theorem read_eq_some_iff_cut {cs : List Char} {r : Rat} :
    read cs = some r ↔ Decimal.Denotes (trim cs) r ∨
      ∃ numerator denominator p q, trim cs = numerator ++ '/' :: denominator ∧ '/' ∉ numerator ∧
        Decimal.Denotes (trim numerator) p ∧ Decimal.Denotes (trim denominator) q ∧ q ≠ 0 ∧
        r = p / q := by
  unfold read
  constructor
  · intro h
    by_cases hslash : '/' ∈ trim cs
    · obtain ⟨numerator, denominator, hsplit, hnumerator⟩ := List.eq_append_cons_of_mem hslash
      rw [hsplit, cut_append _ hnumerator] at h
      simp only at h
      split at h
      · next p q hp hq =>
        split at h
        · cases h
        · next hne =>
          cases h
          exact .inr ⟨numerator, denominator, p, q, hsplit, hnumerator,
            Decimal.read_eq_some_iff.1 hp, Decimal.read_eq_some_iff.1 hq, hne, rfl⟩
      · cases h
    · rw [cut_of_notMem hslash] at h
      exact .inl (Decimal.read_eq_some_iff.1 h)
  · rintro (hr | ⟨numerator, denominator, p, q, hsplit, hnumerator, hp, hq, hne, rfl⟩)
    · have hslash : '/' ∉ trim cs := fun hmem => (class_of_mem_decimal hr hmem).2 rfl
      rw [cut_of_notMem hslash]
      exact Decimal.read_eq_some_iff.2 hr
    · rw [hsplit, cut_append _ hnumerator]
      simp only [Decimal.read_eq_some_iff.2 hp, Decimal.read_eq_some_iff.2 hq, if_neg hne]

end Fraction

/-! ## Numeric texts -/

/-- Exactly the decimals are read as decimals, with the numbers that they denote. Exactly the
decimals, and the texts with a decimal on each side of their first slash, are read as fractions,
where blanks may stand around the whole and around both sides; a quotient is the exact one, and its
divisor is not zero. Every number reads back from the text that is written for it. -/
theorem numerals_read_exactly :
    (∀ (s : String) (r : Rat), Decimal.read s.toList = some r ↔ Decimal.Denotes s.toList r) ∧
    (∀ (s : String) (r : Rat), Fraction.read s.toList = some r ↔
      Decimal.Denotes (trim s.toList) r ∨
      ∃ numerator denominator p q, trim s.toList = numerator ++ '/' :: denominator ∧
        '/' ∉ numerator ∧ Decimal.Denotes (trim numerator) p ∧
        Decimal.Denotes (trim denominator) q ∧ q ≠ 0 ∧ r = p / q) ∧
    ∀ r : Rat, Fraction.read (Fraction.render r).toList = some r := by
  refine ⟨fun s r => Decimal.read_eq_some_iff, fun s r => Fraction.read_eq_some_iff_cut,
    fun r => ?_⟩
  rw [Fraction.toList_render]
  exact Fraction.read_spell r

/-- Signs and points on both sides of the slash; a second slash has no place. -/
example : Fraction.read " +1.5 / -.25 ".toList = some (-6) ∧
    Fraction.read "1/2/3".toList = none := by
  decide +kernel

end UnitAlgebra
