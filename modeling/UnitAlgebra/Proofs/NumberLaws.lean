import Mathlib.Algebra.Order.Ring.Cast
import UnitAlgebra.Proofs.OrderedLaws

/-!
# The laws of numeric values

The numeric value takes a product to the product of the values, a reciprocal to the inverse and a
power to the power (`number?_laws`). A product merges the powers of one base before it is evaluated,
and powers of a base that cancel are not evaluated at all. This changes nothing here: both factors
have a value, so no zero has a negative exponent in either of them, and then the canonical form
keeps the number (`number_reduce_of_nonneg`). A power rearranges the terms and merges none of them
(`perm_reduce_map_pow`), so its value is that of the powers of the terms (`number?_pow`), and the
number of these is the power of the number (`number_map_pow`). A canonical list with a value is zero
exactly when one of its bases is (`number_eq_zero_iff`), which decides whether a reciprocal has a
value.
-/

namespace UnitAlgebra

/-! ## Powers of terms -/

namespace Term

/-- An integer exponent times an integer is an integer. -/
theorem exponent_pow {t : Term} (h : t.exponent.den = 1) (k : Int) :
    (t.pow k).exponent = ((t.exponent.num * k : Int) : Rat) := by
  rw [Int.cast_mul, Rat.coe_int_num_of_den_eq_one h]
  rfl

/-- The number of a power of a term is the power of its number. -/
theorem number_pow {t : Term} (h : t.exponent.den = 1) (k : Int) :
    (t.pow k).number = t.number ^ k := by
  have hnum : (t.pow k).exponent.num = t.exponent.num * k := by
    rw [exponent_pow h, Rat.num_intCast]
  calc (t.pow k).number = baseValue t.base ^ (t.exponent.num * k) := by
        rw [number, hnum]
        rfl
    _ = t.number ^ k := zpow_mul _ _ _

/-- A numeric term other than one is zero exactly when its base is. -/
theorem number_eq_zero_iff {t : Term} (h : t.IsNumeric) (hne : t.exponent ≠ 0) :
    t.number = 0 ↔ t.hasZeroBase = true := by
  rw [number, zpow_eq_zero_iff (Rat.num_ne_zero.2 hne), h.hasZeroBase_iff]

end Term

namespace Terms

/-! ## Powers of lists -/

/-- Raising numeric terms to an integer power raises their number. -/
theorem number_map_pow {ts : List Term} (h : ∀ t ∈ ts, t.exponent.den = 1) (k : Int) :
    number (ts.map fun t => t.pow k) = number ts ^ k := by
  induction ts with
  | nil => exact (one_zpow k).symm
  | cons t ts ih =>
    obtain ⟨ht, hts⟩ := List.forall_mem_cons.1 h
    calc number ((t :: ts).map fun t => t.pow k)
        = (t.pow k).number * number (ts.map fun t => t.pow k) := rfl
      _ = t.number ^ k * number ts ^ k := by rw [Term.number_pow ht, ih hts]
      _ = number (t :: ts) ^ k := (mul_zpow _ _ k).symm

/-- The number of a list without zero exponents is zero exactly when a base is. -/
theorem number_eq_zero_iff {ts : List Term} (h : ∀ t ∈ ts, t.IsNumeric)
    (hne : ∀ t ∈ ts, t.exponent ≠ 0) :
    number ts = 0 ↔ ∃ t ∈ ts, t.hasZeroBase = true := by
  rw [number, powers, List.prod_eq_zero_iff, List.mem_map]
  exact exists_congr fun t => and_congr_right fun ht => Term.number_eq_zero_iff (h t ht) (hne t ht)

/-- Terms of different bases, none of them neutral and none with a zero exponent, are only
rearranged by the canonical form. -/
theorem perm_reduce {ts : List Term} (hnodup : (ts.map Term.base).Nodup)
    (hneutral : ∀ t ∈ ts, t.isNeutral = false) (hzero : ∀ t ∈ ts, t.exponent ≠ 0) :
    (reduce ts).Perm ts := by
  have hreduce : (reduce ts).Nodup := (isCanonical_reduce ts).nodup.of_map
  refine (List.perm_ext_iff_of_nodup hreduce hnodup.of_map).2 fun t => ?_
  constructor
  · intro ht
    -- the term of the list with the same base has the whole total
    obtain ⟨u, hu, hbase⟩ := exists_base_of_mem_reduce ht
    obtain ⟨-, htotal, -⟩ := mem_reduce_iff.1 ht
    have hexponent : t.exponent = u.exponent := by
      rw [htotal, ← hbase, total_of_mem hnodup hu]
    obtain rfl : u = t := by
      cases u
      cases t
      exact congrArg₂ Term.mk hbase hexponent.symm
    exact hu
  · intro ht
    have hne : t.base ≠ "1" := by simpa [Term.isNeutral] using hneutral t ht
    exact mem_reduce_iff.2 ⟨hne, (total_of_mem hnodup ht).symm, hzero t ht⟩

/-- A power of a canonical list only rearranges the powers of its terms. -/
theorem IsCanonical.perm_reduce_map_pow {ts : List Term} (h : IsCanonical ts) {n : Rat}
    (hn : n ≠ 0) : (reduce (ts.map fun t => t.pow n)).Perm (ts.map fun t => t.pow n) := by
  apply perm_reduce
  · have hbases : (ts.map fun t => t.pow n).map Term.base = ts.map Term.base := List.map_map
    rw [hbases]
    exact h.nodup
  · exact List.forall_mem_map.2 h.isNeutral_eq_false
  · exact List.forall_mem_map.2 fun t ht => mul_ne_zero (h.exponent_ne_zero t ht) hn

end Terms

namespace Expression

variable {a b : Expression} {x y z w : Rat}

/-! ## Values -/

/-- The value of a product is the product of the values, if all three exist. -/
theorem eq_mul_of_number?_mul (hx : a.number? = some x) (hy : b.number? = some y)
    (hz : (a * b).number? = some z) : z = x * y := by
  obtain ⟨ha, rfl⟩ := Terms.number?_eq_some_iff.1 hx
  obtain ⟨hb, rfl⟩ := Terms.number?_eq_some_iff.1 hy
  obtain ⟨-, rfl⟩ := Terms.number?_eq_some_iff.1 hz
  have hboth : ∀ t ∈ a.terms ++ b.terms, t.HasNumber := List.forall_mem_append.2 ⟨ha, hb⟩
  calc Terms.number (a * b).terms
      = Terms.number (Terms.reduce (a.terms ++ b.terms)) := by rw [terms_mul]
    _ = Terms.number (a.terms ++ b.terms) :=
        Terms.number_reduce_of_nonneg (fun t ht => (hboth t ht).toIsNumeric)
          fun t ht => (hboth t ht).nonneg_of_hasZeroBase
    _ = Terms.number a.terms * Terms.number b.terms := Terms.powers_append _ _ _

/-- The value of a power is that of the powers of the terms. -/
theorem number?_pow (ha : Terms.IsCanonical a.terms) {n : Rat} (hn : n ≠ 0) :
    (a.pow n).number? = Terms.number? (a.terms.map fun t => t.pow n) := by
  rw [pow_of_ne_zero a hn]
  exact Terms.number?_perm (ha.perm_reduce_map_pow hn)

/-- The value of an integer power is the power of the value, if both exist. -/
theorem eq_zpow_of_number?_pow (ha : Terms.IsCanonical a.terms) (hx : a.number? = some x) {k : Int}
    (hw : (a.pow k).number? = some w) : w = x ^ k := by
  obtain ⟨hnumber, rfl⟩ := Terms.number?_eq_some_iff.1 hx
  by_cases hk : k = 0
  · subst hk
    rw [Int.cast_zero, pow_zero, number?_one] at hw
    rw [zpow_zero]
    exact (Option.some.inj hw).symm
  · rw [number?_pow ha (Int.cast_ne_zero.2 hk)] at hw
    obtain ⟨-, rfl⟩ := Terms.number?_eq_some_iff.1 hw
    exact Terms.number_map_pow (fun t ht => (hnumber t ht).den_eq_one) k

/-- The value of a canonical expression is zero exactly when one of its bases is. -/
theorem eq_zero_iff_of_number? (ha : Terms.IsCanonical a.terms) (hx : a.number? = some x) :
    x = 0 ↔ ∃ t ∈ a.terms, t.hasZeroBase = true := by
  obtain ⟨hnumber, rfl⟩ := Terms.number?_eq_some_iff.1 hx
  exact Terms.number_eq_zero_iff (fun t ht => (hnumber t ht).toIsNumeric) ha.exponent_ne_zero

/-- A power with a negative exponent has no value where the value is zero. -/
theorem ne_zero_of_number?_pow_neg (ha : Terms.IsCanonical a.terms) (hx : a.number? = some x)
    {k : Int} (hk : k < 0) (hw : (a.pow k).number? = some w) : x ≠ 0 := by
  rintro rfl
  obtain ⟨t, ht, hzero⟩ := (eq_zero_iff_of_number? ha hx).1 rfl
  obtain ⟨hnumber, -⟩ := Terms.number?_eq_some_iff.1 hx
  have hpos : 0 < t.exponent :=
    lt_of_le_of_ne ((hnumber t ht).nonneg_of_hasZeroBase hzero) (ha.exponent_ne_zero t ht).symm
  rw [number?_pow ha (Int.cast_ne_zero.2 hk.ne)] at hw
  obtain ⟨hpowers, -⟩ := Terms.number?_eq_some_iff.1 hw
  -- the power of the zero has a negative exponent
  have hnonneg : 0 ≤ t.exponent * (k : Rat) :=
    (hpowers (t.pow k) (List.mem_map_of_mem ht)).nonneg_of_hasZeroBase hzero
  exact absurd hnonneg (not_le.2 (mul_neg_of_pos_of_neg hpos (Int.cast_lt_zero.2 hk)))

/-- A reciprocal is the power with the integer minus one. -/
theorem inverse_eq_pow_intCast (a : Expression) : a.inverse = a.pow ((-1 : Int) : Rat) := by
  rw [inverse_eq_pow, Int.cast_neg, Int.cast_one]

/-- The reciprocal of an expression whose value is not zero has the inverse for its value. -/
theorem number?_inverse_of_ne_zero (ha : Terms.IsCanonical a.terms) (hx : a.number? = some x)
    (hne : x ≠ 0) : a.inverse.number? = some (1 / x) := by
  have hbase : ∀ t ∈ a.terms, ¬t.hasZeroBase = true := fun t ht hzero =>
    hne ((eq_zero_iff_of_number? ha hx).2 ⟨t, ht, hzero⟩)
  obtain ⟨hnumber, rfl⟩ := Terms.number?_eq_some_iff.1 hx
  rw [inverse_eq_pow_intCast, number?_pow ha (by decide)]
  refine Terms.number?_eq_some_iff.2 ⟨List.forall_mem_map.2 fun t ht => ?_, ?_⟩
  · -- the exponent only changes its sign
    have hexponent := Term.exponent_pow (hnumber t ht).den_eq_one (-1)
    refine ⟨⟨(hnumber t ht).isSome_read, ?_⟩, ?_, fun hzero => absurd hzero (hbase t ht)⟩
    · rw [hexponent, Rat.den_intCast]
    · rw [hexponent, Rat.num_intCast, mul_neg, mul_one, Int.natAbs_neg]
      exact (hnumber t ht).natAbs_le
  · rw [Terms.number_map_pow (fun t ht => (hnumber t ht).den_eq_one), zpow_neg_one, inv_eq_one_div]

/-- The reciprocal of an expression whose value is zero has no value. -/
theorem number?_inverse_of_eq_zero (ha : Terms.IsCanonical a.terms) (hx : a.number? = some 0) :
    a.inverse.number? = none := by
  rw [Option.eq_none_iff_forall_ne_some, inverse_eq_pow_intCast]
  exact fun w hw => ne_zero_of_number?_pow_neg ha hx (by decide) hw rfl

/-- An expression is raised to the value of another one. -/
theorem power_expression {c : Expression} (hx : a.number? = some x) :
    (Operand.expression c).power (.expression a) = .ok (c.pow x) :=
  Operand.power_eq_ok rfl ((exponentValue_eq_ok_iff (by simp)).2 ⟨a, rfl, hx⟩)

end Expression

open Expression

/-- Where all values exist, that of a product is the product of the values, so that a product in the
place of an exponent raises twice. The reciprocal of an expression with a value has the inverse
value, and none where the value is zero. Where an integer power has a value, it is the power of the
value, and the value is not zero if the exponent is negative. -/
theorem number?_laws :
    (∀ (a b : Expression) (x y z : Rat), a.number? = some x → b.number? = some y →
      (a * b).number? = some z → z = x * y ∧
      ∀ c : Expression, ∃ once first twice,
        (Operand.expression c).power (.expression (a * b)) = .ok once ∧
        (Operand.expression c).power (.expression a) = .ok first ∧
        (Operand.expression first).power (.expression b) = .ok twice ∧ once == twice) ∧
    ∀ a : Expression, Obtainable (.expression a) → ∀ x : Rat, a.number? = some x →
      (x ≠ 0 → a.inverse.number? = some (1 / x)) ∧
      (x = 0 → a.inverse.number? = none) ∧
      ∀ (k : Int) (w : Rat), (a.pow k).number? = some w → w = x ^ k ∧ (k < 0 → x ≠ 0) := by
  refine ⟨fun a b x y z hx hy hz => ?_, fun a ha x hx => ?_⟩
  · obtain rfl := eq_mul_of_number?_mul hx hy hz
    refine ⟨rfl, fun c => ⟨_, _, _, power_expression hz, power_expression hx, power_expression hy,
      ?_⟩⟩
    rw [pow_pow_eq]
    exact BEq.rfl
  · have hcanonical : Terms.IsCanonical a.terms := ha.isSound.isCanonical
    refine ⟨number?_inverse_of_ne_zero hcanonical hx, fun hzero => ?_, fun k w hw => ⟨?_, ?_⟩⟩
    · subst hzero
      exact number?_inverse_of_eq_zero hcanonical hx
    · exact eq_zpow_of_number?_pow hcanonical hx hw
    · exact fun hk => ne_zero_of_number?_pow_neg hcanonical hx hk hw

/-- A product in which two exponents of a base cancel and two spellings of a number stay apart, and
the reciprocal of a product with a zero. -/
theorem number?_laws_spellings :
    (ofTerms [⟨"2", 3⟩, ⟨"3", -1⟩]).number? = some (8/3) ∧
    (ofTerms [⟨"3", 1⟩, ⟨"2.0", -2⟩]).number? = some (3/4) ∧
    (ofTerms [⟨"2", 3⟩, ⟨"3", -1⟩] * ofTerms [⟨"3", 1⟩, ⟨"2.0", -2⟩]).number? = some 2 ∧
    2 = (8/3) * (3/4 : Rat) ∧
    (ofTerms [⟨"2", 3⟩, ⟨"3", -1⟩]).inverse.number? = some (1 / (8/3)) ∧
    ((ofTerms [⟨"2", 3⟩, ⟨"3", -1⟩]).pow ((-2 : Int) : Rat)).number? = some (9/64) ∧
    9/64 = (8/3 : Rat) ^ (-2 : Int) ∧ (8/3 : Rat) ≠ 0 ∧
    (ofTerms [⟨"0.0", 2⟩, ⟨"5", -1⟩]).number? = some 0 ∧
    (ofTerms [⟨"0.0", 2⟩, ⟨"5", -1⟩]).inverse.number? = none := by
  have ha : Obtainable (.expression (ofTerms [⟨"2", 3⟩, ⟨"3", -1⟩])) := .ofTerms (by decide)
  have hzero : Obtainable (.expression (ofTerms [⟨"0.0", 2⟩, ⟨"5", -1⟩])) := .ofTerms (by decide)
  have hx : (ofTerms [⟨"2", 3⟩, ⟨"3", -1⟩]).number? = some (8/3) := by decide +kernel
  have hy : (ofTerms [⟨"3", 1⟩, ⟨"2.0", -2⟩]).number? = some (3/4) := by decide +kernel
  have hz : (ofTerms [⟨"2", 3⟩, ⟨"3", -1⟩] * ofTerms [⟨"3", 1⟩, ⟨"2.0", -2⟩]).number? = some 2 := by
    decide +kernel
  have hw : ((ofTerms [⟨"2", 3⟩, ⟨"3", -1⟩]).pow ((-2 : Int) : Rat)).number? = some (9/64) := by
    decide +kernel
  have hnone : (ofTerms [⟨"0.0", 2⟩, ⟨"5", -1⟩]).number? = some 0 := by decide +kernel
  have hne : (8/3 : Rat) ≠ 0 := by decide +kernel
  obtain ⟨hmul, hrest⟩ := number?_laws
  obtain ⟨hinverse, -, hpow⟩ := hrest _ ha _ hx
  obtain ⟨-, hreciprocal, -⟩ := hrest _ hzero _ hnone
  obtain ⟨hvalue, hnonzero⟩ := hpow _ _ hw
  exact ⟨hx, hy, hz, (hmul _ _ _ _ _ hx hy hz).1, hinverse hne, hw, hvalue, hnonzero (by decide),
    hnone, hreciprocal rfl⟩

end UnitAlgebra
