import Mathlib.Algebra.Module.Pi
import Mathlib.Data.Prod.Lex
import Mathlib.Data.String.Basic
import UnitAlgebra.Operand.Conversion
import UnitAlgebra.Proofs.Canonical

/-!
# What an expression denotes

An expression stands for an exponent at each base, `Expression.exponents`. This takes a product to a
sum, a ratio to a difference and a power to a multiple (`exponents_mul`, `exponents_div`,
`exponents_pow`). `Calculation` is a tree of operations on lists of terms, with two readings:
`value` calculates with expressions, where terms merge, cancel and change their places at every
node, and `exponent` calculates with the numbers of one base. The readings agree (`total_value`), so
the exponent that an expression reports is the number of its base. Sorted canonical lists are the
same exactly when they have the same totals (`sorted_eq_sorted_iff`, `IsCanonical.perm_iff`), so
`==` tells whether two calculations agree at every base.
-/

namespace UnitAlgebra

/-! ## Sorted terms -/

namespace Term

/-- The order of terms is the lexicographic order of base and exponent. -/
theorem isLE_iff {a b : Term} :
    a.isLE b = true ↔ toLex (a.base, a.exponent) ≤ toLex (b.base, b.exponent) := by
  rw [Prod.Lex.toLex_le_toLex, isLE, compare, bne_iff_ne]
  -- the exponents decide only where the bases are the same
  split_ifs with hbase heq hlt hexp
  · simp [hbase]
  · simp [heq, hlt.le]
  · simp [heq, hexp]
  · have hgt : b.exponent < a.exponent := lt_of_le_of_ne (not_lt.1 hlt) (Ne.symm hexp)
    simp [heq, hgt]
  · simp [hbase, heq]

/-- The order of terms is transitive. -/
theorem isLE_trans (a b c : Term) (hab : a.isLE b = true) (hbc : b.isLE c = true) :
    a.isLE c = true :=
  isLE_iff.2 ((isLE_iff.1 hab).trans (isLE_iff.1 hbc))

/-- Any two terms are in order, one way or the other. -/
theorem isLE_total (a b : Term) : (a.isLE b || b.isLE a) = true := by
  rw [Bool.or_eq_true, isLE_iff, isLE_iff]
  exact le_total _ _

/-- Terms that are in order both ways are the same. -/
theorem isLE_antisymm {a b : Term} (hab : a.isLE b = true) (hba : b.isLE a = true) : a = b := by
  obtain ⟨x, p⟩ := a
  obtain ⟨y, q⟩ := b
  have h := toLex.injective (le_antisymm (isLE_iff.1 hab) (isLE_iff.1 hba))
  rw [Prod.mk.injEq] at h
  rw [Term.mk.injEq]
  exact h

end Term

namespace Terms

/-- A sorted list is in order. -/
theorem pairwise_sorted (ts : List Term) :
    (sorted ts).Pairwise fun a b => a.isLE b = true :=
  List.pairwise_mergeSort Term.isLE_trans Term.isLE_total ts

/-- Sorting forgets the order of the terms, and nothing else. -/
theorem sorted_eq_sorted_iff {ts us : List Term} : sorted ts = sorted us ↔ ts.Perm us := by
  constructor
  · intro h
    exact (sorted_perm ts).symm.trans (h ▸ sorted_perm us)
  · intro h
    -- two lists in order with the same terms are the same
    have hperm : (sorted ts).Perm (sorted us) :=
      (sorted_perm ts).trans (h.trans (sorted_perm us).symm)
    exact hperm.eq_of_pairwise (fun _ _ _ _ => Term.isLE_antisymm) (pairwise_sorted ts)
      (pairwise_sorted us)

/-! ## Canonical lists and their totals -/

/-- The total of a base does not depend on the order of the terms. -/
theorem total_perm {ts us : List Term} (h : ts.Perm us) (base : String) :
    total base ts = total base us :=
  ((h.filter _).map _).sum_eq

/-- The neutral base has no total in a canonical list. -/
theorem IsCanonical.total_one {ts : List Term} (h : IsCanonical ts) : total "1" ts = 0 := by
  refine total_of_notMem fun hmem => ?_
  obtain ⟨t, ht, hbase⟩ := List.mem_map.1 hmem
  have hneutral : t.isNeutral = true := by rw [Term.isNeutral, hbase, beq_self_eq_true]
  rw [h.isNeutral_eq_false t ht] at hneutral
  cases hneutral

/-- The terms of a canonical list are its totals that are not zero. -/
theorem IsCanonical.mem_iff {ts : List Term} (h : IsCanonical ts) {t : Term} :
    t ∈ ts ↔ t.exponent = total t.base ts ∧ t.exponent ≠ 0 := by
  have hmem : t ∈ ts ↔ t ∈ reduce ts := by rw [reduce_of_isCanonical h]
  rw [hmem, mem_reduce_iff]
  refine ⟨fun ht => ht.2, fun ht => ⟨fun hbase => ht.2 ?_, ht⟩⟩
  rw [ht.1, hbase, h.total_one]

/-- Canonical lists have the same terms exactly when they have the same totals. -/
theorem IsCanonical.perm_iff {ts us : List Term} (hts : IsCanonical ts) (hus : IsCanonical us) :
    ts.Perm us ↔ ∀ base, base ≠ "1" → total base ts = total base us := by
  constructor
  · intro h base _
    exact total_perm h base
  · intro h
    have htotal : ∀ base, total base ts = total base us := by
      intro base
      by_cases hbase : base = "1"
      · rw [hbase, hts.total_one, hus.total_one]
      · exact h base hbase
    -- no term occurs twice, and the totals decide which terms occur
    refine (List.perm_ext_iff_of_nodup hts.nodup.of_map hus.nodup.of_map).2 fun t => ?_
    rw [hts.mem_iff, hus.mem_iff, htotal]

end Terms

/-! ## Expressions -/

namespace Expression

/-- A canonical expression reports the total of a base, unless it is zero. -/
theorem exponentOf?_eq {e : Expression} (h : Terms.IsCanonical e.terms) (base : String) :
    e.exponentOf? base =
      if Terms.total base e.terms = 0 then none else some (Terms.total base e.terms) := by
  unfold exponentOf?
  cases hfind : e.terms.find? fun t => t.base == base with
  | none =>
    have hnone : base ∉ e.terms.map Term.base := by
      rw [List.find?_eq_none] at hfind
      simpa using hfind
    rw [Terms.total_of_notMem hnone]
    rfl
  | some t =>
    have ht : t ∈ e.terms := List.mem_of_find?_eq_some hfind
    have hbase : t.base = base := by simpa using List.find?_some hfind
    have htotal : Terms.total base e.terms = t.exponent := hbase ▸ Terms.total_of_mem h.nodup ht
    rw [htotal, if_neg (h.exponent_ne_zero t ht)]
    rfl

/-- An expression contains the bases for which it reports an exponent. -/
theorem contains_eq_isSome (e : Expression) (base : String) :
    e.contains base = (e.exponentOf? base).isSome := by
  rw [contains, exponentOf?, Option.isSome_map, Bool.eq_iff_iff, List.any_eq_true,
    List.find?_isSome]

/-- Canonical expressions are equal exactly when they have the same totals. -/
theorem content_eq_iff {a b : Expression} (ha : Terms.IsCanonical a.terms)
    (hb : Terms.IsCanonical b.terms) :
    a.content = b.content ↔
      ∀ base, base ≠ "1" → Terms.total base a.terms = Terms.total base b.terms :=
  Terms.sorted_eq_sorted_iff.trans (ha.perm_iff hb)

/-- A product is canonical. -/
theorem isCanonical_mul (a b : Expression) : Terms.IsCanonical (a * b).terms := by
  rw [terms_mul]
  exact Terms.isCanonical_reduce _

/-- A ratio is canonical. -/
theorem isCanonical_div (a b : Expression) : Terms.IsCanonical (a / b).terms := by
  rw [terms_div]
  exact Terms.isCanonical_reduce _

/-- A reciprocal is canonical. -/
theorem isCanonical_inverse (a : Expression) : Terms.IsCanonical a.inverse.terms :=
  Terms.isCanonical_reduce _

/-- A power is canonical. -/
theorem isCanonical_pow (a : Expression) (n : Rat) : Terms.IsCanonical (a.pow n).terms := by
  by_cases hn : n = 0
  · rw [hn, pow_zero]
    exact Terms.isCanonical_nil
  · rw [pow_of_ne_zero a hn]
    exact Terms.isCanonical_reduce _

/-! ## Exponents -/

/-- The exponent at each base; the neutral base has none. -/
def exponents (a : Expression) (base : String) : Rat :=
  if base = "1" then 0 else Terms.total base a.terms

/-- The exponents of a canonical form are the totals of the list. -/
theorem exponents_ofTerms (ts : List Term) (base : String) :
    (ofTerms ts).exponents base = if base = "1" then 0 else Terms.total base ts := by
  unfold exponents
  split_ifs with h
  · rfl
  · exact Terms.total_reduce h ts

/-- The empty product has no exponents. -/
theorem exponents_one : one.exponents = 0 := by
  funext base
  unfold exponents
  split_ifs <;> rfl

/-- The exponents of a product are the sums. -/
theorem exponents_mul (a b : Expression) : (a * b).exponents = a.exponents + b.exponents := by
  funext base
  show (ofTerms (a.terms ++ b.terms)).exponents base = a.exponents base + b.exponents base
  rw [exponents_ofTerms, Terms.total_append, exponents, exponents]
  split_ifs
  · rw [add_zero]
  · rfl

/-- The exponents of a reciprocal are the opposites. -/
theorem exponents_inverse (a : Expression) : a.inverse.exponents = -a.exponents := by
  funext base
  show (ofTerms (a.terms.map Term.inverse)).exponents base = -a.exponents base
  rw [exponents_ofTerms, Terms.total_map_inverse, exponents]
  split_ifs
  · rw [neg_zero]
  · rfl

/-- The exponents of a ratio are the differences. -/
theorem exponents_div (a b : Expression) : (a / b).exponents = a.exponents - b.exponents := by
  funext base
  show (ofTerms (a.terms ++ b.terms.map Term.inverse)).exponents base =
    a.exponents base - b.exponents base
  rw [exponents_ofTerms, Terms.total_append, Terms.total_map_inverse, exponents, exponents]
  split_ifs
  · rw [sub_zero]
  · rw [sub_eq_add_neg]

/-- The exponents of a power are the multiples. -/
theorem exponents_pow (a : Expression) (n : Rat) : (a.pow n).exponents = n • a.exponents := by
  by_cases hn : n = 0
  · rw [hn, pow_zero, exponents_one, zero_smul]
  · funext base
    rw [pow_of_ne_zero a hn, exponents_ofTerms, Terms.total_map_pow, Pi.smul_apply, exponents]
    split_ifs
    · rw [smul_zero]
    · rw [smul_eq_mul, mul_comm]

end Expression

/-! ## Calculations -/

/-- A tree of operations on lists of terms. -/
inductive Calculation
  /-- The product of any terms. -/
  | terms (ts : List Term)
  /-- A product. -/
  | mul (x y : Calculation)
  /-- A ratio. -/
  | div (x y : Calculation)
  /-- A reciprocal. -/
  | inverse (x : Calculation)
  /-- A power. -/
  | pow (x : Calculation) (n : Rat)

namespace Calculation

/-- The expression that a calculation gives. -/
def value : Calculation → Expression
  | terms ts => .ofTerms ts
  | mul x y => x.value * y.value
  | div x y => x.value / y.value
  | inverse x => x.value.inverse
  | pow x n => x.value.pow n

/-- The number that a calculation gives at a base. -/
def exponent (base : String) : Calculation → Rat
  | terms ts => Terms.total base ts
  | mul x y => x.exponent base + y.exponent base
  | div x y => x.exponent base - y.exponent base
  | inverse x => -x.exponent base
  | pow x n => x.exponent base * n

/-- The expression of a calculation is canonical. -/
theorem isCanonical_value (x : Calculation) : Terms.IsCanonical x.value.terms := by
  cases x with
  | terms ts => exact Terms.isCanonical_reduce ts
  | mul x y => exact Expression.isCanonical_mul x.value y.value
  | div x y => exact Expression.isCanonical_div x.value y.value
  | inverse x => exact Expression.isCanonical_inverse x.value
  | pow x n => exact Expression.isCanonical_pow x.value n

/-- The exponents of the expression of a calculation are its numbers. -/
theorem exponents_value {base : String} (h : base ≠ "1") (x : Calculation) :
    x.value.exponents base = x.exponent base := by
  induction x with
  | terms ts => rw [value, exponent, Expression.exponents_ofTerms, if_neg h]
  | mul x y ihx ihy => rw [value, exponent, Expression.exponents_mul, Pi.add_apply, ihx, ihy]
  | div x y ihx ihy => rw [value, exponent, Expression.exponents_div, Pi.sub_apply, ihx, ihy]
  | inverse x ih => rw [value, exponent, Expression.exponents_inverse, Pi.neg_apply, ih]
  | pow x n ih =>
    rw [value, exponent, Expression.exponents_pow, Pi.smul_apply, ih, smul_eq_mul, mul_comm]

/-- The totals of the expression of a calculation are its numbers. -/
theorem total_value {base : String} (h : base ≠ "1") (x : Calculation) :
    Terms.total base x.value.terms = x.exponent base := by
  rw [← exponents_value h, Expression.exponents, if_neg h]

/-- A list of terms converts to the expression at its leaf. The expression of a calculation reports
at each base the number of the calculation, and nothing where this is zero; it reports nothing at
the neutral base. Two of them are equal, and have the same content, exactly when all numbers
agree. -/
theorem value_denotes (x y : Calculation) :
    (∀ ts, (Operand.terms ts).toExpression = .ok (terms ts).value) ∧
    (∀ base, base ≠ "1" →
      x.value.exponentOf? base = (if x.exponent base = 0 then none else some (x.exponent base)) ∧
      (x.value.contains base = false ↔ x.exponent base = 0)) ∧
    x.value.exponentOf? "1" = none ∧
    ((x.value == y.value) = true ↔ ∀ base, base ≠ "1" → x.exponent base = y.exponent base) ∧
    (x.value.content = y.value.content ↔
      ∀ base, base ≠ "1" → x.exponent base = y.exponent base) := by
  have hx := x.isCanonical_value
  have hcontent : x.value.content = y.value.content ↔
      ∀ base, base ≠ "1" → x.exponent base = y.exponent base := by
    rw [Expression.content_eq_iff hx y.isCanonical_value]
    refine forall₂_congr fun base hbase => ?_
    rw [total_value hbase, total_value hbase]
  refine ⟨fun _ => rfl, fun base hbase => ?_, ?_, Expression.beq_iff_content.trans hcontent,
    hcontent⟩
  · have hexponent : x.value.exponentOf? base =
        if x.exponent base = 0 then none else some (x.exponent base) := by
      rw [Expression.exponentOf?_eq hx, total_value hbase]
    refine ⟨hexponent, ?_⟩
    rw [Expression.contains_eq_isSome, hexponent]
    split_ifs with hzero
    · simp [hzero]
    · simp [hzero]
  · rw [Expression.exponentOf?_eq hx, hx.total_one, if_pos rfl]

/-- A time that cancels leaves an area, the same one as the other calculation gives. -/
theorem value_denotes_area :
    (div (terms [⟨"m", 2⟩, ⟨"1", 4⟩, ⟨"s", 1/2⟩]) (terms [⟨"s", 1/2⟩])).value.exponentOf? "m" =
      some 2 ∧
    (div (terms [⟨"m", 2⟩, ⟨"1", 4⟩, ⟨"s", 1/2⟩]) (terms [⟨"s", 1/2⟩])).value.contains "s" = false ∧
    ((div (terms [⟨"m", 2⟩, ⟨"1", 4⟩, ⟨"s", 1/2⟩]) (terms [⟨"s", 1/2⟩])).value ==
      (pow (inverse (terms [⟨"m", -1⟩])) 2).value) = true := by
  obtain ⟨-, hexponent, -, hbeq, -⟩ := value_denotes
    (div (terms [⟨"m", 2⟩, ⟨"1", 4⟩, ⟨"s", 1/2⟩]) (terms [⟨"s", 1/2⟩]))
    (pow (inverse (terms [⟨"m", -1⟩])) 2)
  obtain ⟨hm, -⟩ := hexponent "m" (by decide)
  obtain ⟨-, hs⟩ := hexponent "s" (by decide)
  refine ⟨hm.trans (by decide +kernel), hs.2 (by decide +kernel), hbeq.2 fun base hbase => ?_⟩
  by_cases hm : "m" = base
  · subst hm
    decide +kernel
  · by_cases hs : "s" = base
    · subst hs
      decide +kernel
    · simp [exponent, Terms.total_cons, Terms.total_nil, hm, hs, Ne.symm hbase]

end Calculation

end UnitAlgebra
