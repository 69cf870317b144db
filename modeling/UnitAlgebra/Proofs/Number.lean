import Mathlib.Algebra.BigOperators.Ring.List
import Mathlib.Algebra.Field.Rat
import Mathlib.Algebra.GroupWithZero.Basic
import Mathlib.Data.Rat.Lemmas
import Mathlib.Tactic.Ring
import UnitAlgebra.Operand.Arithmetic
import UnitAlgebra.Proofs.Canonical

/-!
# The value of a numeric product

A numeric term is a power of a written number with an integer exponent, and `Terms.number` is the
product of such powers. `Terms.number?_eq_some_iff` says when an expression has a numeric value, and
that it is this product over the terms of the expression.

The terms of a text are combined before they are evaluated. `powers_insert` follows one step of
that: two powers of one base become one power with the sum of the exponents, which is the same
number unless the base is zero and an exponent is negative. So `powers_reduce` carries a product
through the canonical form where nothing is divided by zero. A zero that is divided by zero cancels
like any other base, and then the text has a value although one of its factors has none
(`number?_zero_over_zero`). `number_reduce` says what is left of the zeros in the canonical form,
and `number?_text` what this means for the value of a text.
-/

namespace UnitAlgebra

/-! ## Powers -/

namespace Numeral

/-- The loop gives the product of the accumulator and the power. -/
theorem squareAndMultiply_eq (acc base : Rat) (n : Nat) :
    squareAndMultiply acc base n = acc * base ^ n := by
  fun_induction squareAndMultiply acc base n with
  | case1 acc base => rw [pow_zero, mul_one]
  | case2 acc base n hn next hhalf =>
    -- without a half, the exponent is one
    have hone : n = 1 := by omega
    subst hone
    rw [pow_one]
    rfl
  | case3 acc base n hn next hhalf ih =>
    have hnext : next = acc * base ^ (n % 2) := by
      rcases Nat.mod_two_eq_zero_or_one n with hmod | hmod
      · simp [next, hmod]
      · simp [next, hmod]
    calc squareAndMultiply next (base * base) (n / 2)
        = acc * base ^ (n % 2) * (base * base) ^ (n / 2) := by rw [ih, hnext]
      _ = acc * base ^ (n % 2 + 2 * (n / 2)) := by rw [pow_add, pow_mul, pow_two, mul_assoc]
      _ = acc * base ^ n := by rw [Nat.mod_add_div]

/-- The power by repeated squaring is the power. -/
theorem power_eq_zpow (base : Rat) (n : Int) : power base n = base ^ n := by
  unfold power
  rw [squareAndMultiply_eq, one_mul]
  split
  · next hn =>
    have habs : n = -(n.natAbs : Int) := by omega
    rw [habs, zpow_neg, zpow_natCast, Int.natAbs_neg, Int.natAbs_natCast, one_div]
  · next hn =>
    have habs : n = (n.natAbs : Int) := by omega
    rw [habs, zpow_natCast, Int.natAbs_natCast]

/-- Two rationals that are integers have the integer sum of these. -/
theorem add_eq_intCast {x y : Rat} (hx : x.den = 1) (hy : y.den = 1) :
    x + y = ((x.num + y.num : Int) : Rat) := by
  rw [Int.cast_add, Rat.coe_int_num_of_den_eq_one hx, Rat.coe_int_num_of_den_eq_one hy]

/-- Powers with integer exponents multiply by adding the exponents, unless zero has a negative
exponent. -/
theorem zpow_num_add {a x y : Rat} (hx : x.den = 1) (hy : y.den = 1)
    (hzero : a = 0 → 0 ≤ x ∧ 0 ≤ y) : a ^ (x + y).num = a ^ x.num * a ^ y.num := by
  rw [add_eq_intCast hx hy, Rat.num_intCast]
  refine zpow_add' ?_
  by_cases ha : a = 0
  · obtain ⟨hx0, hy0⟩ := hzero ha
    have hxnum : 0 ≤ x.num := Rat.num_nonneg.2 hx0
    have hynum : 0 ≤ y.num := Rat.num_nonneg.2 hy0
    omega
  · exact .inl ha

end Numeral

/-! ## Integer exponents -/

/-- An exponent is the integer of a word exactly when it is equal to it. -/
theorem integerExponent?_eq_some_iff {r : Rat} {n : Int64} :
    integerExponent? r = some n ↔ r = (n.toInt : Rat) := by
  unfold integerExponent?
  constructor
  · intro h
    split at h
    · next hword =>
      obtain ⟨hden, hlow, hhigh⟩ := hword
      rw [Int64.toInt_minValue] at hlow
      rw [Int64.toInt_maxValue] at hhigh
      obtain rfl := Option.some.inj h
      rw [Int64.toInt_ofInt_of_le hlow (by omega), Rat.coe_int_num_of_den_eq_one hden]
    · cases h
  · rintro rfl
    have hword : Int64.minValue.toInt ≤ n.toInt ∧ n.toInt ≤ Int64.maxValue.toInt :=
      ⟨n.minValue_le_toInt, n.toInt_le⟩
    rw [Rat.num_intCast, Rat.den_intCast, if_pos ⟨rfl, hword⟩, Int64.ofInt_toInt]

/-- Every integer of moderate size is the integer of a word. -/
theorem exists_integerExponent?_eq_some {r : Rat} (hden : r.den = 1)
    (habs : r.num.natAbs ≤ largestExponent) : ∃ n, integerExponent? r = some n := by
  rw [largestExponent] at habs
  have hword : (Int64.ofInt r.num).toInt = r.num :=
    Int64.toInt_ofInt_of_le (by omega) (by omega)
  refine ⟨Int64.ofInt r.num, integerExponent?_eq_some_iff.2 ?_⟩
  rw [hword, Rat.coe_int_num_of_den_eq_one hden]

/-! ## Numeric terms -/

/-- The number that a base writes, and zero if it writes none. -/
def baseValue (base : String) : Rat :=
  (Decimal.read base.toList).getD 0

/-- The value of the neutral base. -/
theorem baseValue_one : baseValue "1" = 1 := by
  decide +kernel

namespace Term

/-- A term is numeric when its base writes a number and its exponent is an integer. -/
structure IsNumeric (t : Term) : Prop where
  /-- The base writes a number. -/
  isSome_read : (Decimal.read t.base.toList).isSome = true
  /-- The exponent is an integer. -/
  den_eq_one : t.exponent.den = 1

/-- The two conditions on a numeric term. -/
theorem isNumeric_iff {t : Term} :
    t.IsNumeric ↔ (Decimal.read t.base.toList).isSome = true ∧ t.exponent.den = 1 :=
  ⟨fun h => ⟨h.isSome_read, h.den_eq_one⟩, fun h => ⟨h.1, h.2⟩⟩

instance (t : Term) : Decidable t.IsNumeric :=
  decidable_of_iff' _ isNumeric_iff

/-- A base that writes a number, with an integer exponent, is a numeric term. -/
theorem isNumeric_of_read {t : Term} {r : Rat} (h : Decimal.read t.base.toList = some r)
    (hden : t.exponent.den = 1) : t.IsNumeric :=
  ⟨Option.isSome_of_eq_some h, hden⟩

/-- The base of a term writes zero. -/
def hasZeroBase (t : Term) : Bool :=
  Decimal.read t.base.toList == some 0

/-- The number that a numeric term stands for. -/
def number (t : Term) : Rat :=
  baseValue t.base ^ t.exponent.num

/-- A numeric term has a value when its exponent is not too large and it does not divide by zero. -/
structure HasNumber (t : Term) : Prop extends t.IsNumeric where
  /-- The exponent is of moderate size. -/
  natAbs_le : t.exponent.num.natAbs ≤ largestExponent
  /-- A zero has no negative exponent. -/
  nonneg_of_hasZeroBase : t.hasZeroBase = true → 0 ≤ t.exponent

/-- A numeric term has a zero base when the value of the base is zero. -/
theorem IsNumeric.hasZeroBase_iff {t : Term} (h : t.IsNumeric) :
    t.hasZeroBase = true ↔ baseValue t.base = 0 := by
  obtain ⟨r, hr⟩ := Option.isSome_iff_exists.1 h.isSome_read
  rw [hasZeroBase, baseValue, hr]
  simp

/-- The guard of the evaluation, for a base that writes a number. -/
theorem hasNumber_iff_of_read {t : Term} {base : Rat}
    (hread : Decimal.read t.base.toList = some base) :
    t.HasNumber ↔ t.exponent.den = 1 ∧ t.exponent.num.natAbs ≤ largestExponent ∧
      ¬(base = 0 ∧ t.exponent.num < 0) := by
  have hzero : t.hasZeroBase = true ↔ base = 0 := by
    rw [hasZeroBase, hread]
    simp
  constructor
  · rintro ⟨⟨-, hden⟩, habs, hnonneg⟩
    refine ⟨hden, habs, fun hdivide => ?_⟩
    have hexponent : 0 ≤ t.exponent := hnonneg (hzero.2 hdivide.1)
    exact absurd hdivide.2 (not_lt.2 (Rat.num_nonneg.2 hexponent))
  · rintro ⟨hden, habs, hdivide⟩
    refine ⟨isNumeric_of_read hread hden, habs, fun hbase => ?_⟩
    have hnum : ¬t.exponent.num < 0 := fun hneg => hdivide ⟨hzero.1 hbase, hneg⟩
    exact Rat.num_nonneg.1 (not_lt.1 hnum)

/-- The value of a term is its number, if it has one. -/
theorem number?_eq_some_iff {t : Term} {x : Rat} :
    t.number? = some x ↔ t.HasNumber ∧ x = t.number := by
  unfold number?
  cases hread : Decimal.read t.base.toList with
  | none =>
    have hnone : ¬t.HasNumber := fun h => by
      have hsome := h.isSome_read
      rw [hread] at hsome
      cases hsome
    simp [hnone]
  | some base =>
    have hvalue : t.number = Numeral.power base t.exponent.num := by
      rw [Numeral.power_eq_zpow, number, baseValue, hread, Option.getD_some]
    rw [hvalue, hasNumber_iff_of_read hread]
    dsimp only
    cases hinteger : integerExponent? t.exponent with
    | none =>
      have hnone : ¬(t.exponent.den = 1 ∧ t.exponent.num.natAbs ≤ largestExponent) := by
        rintro ⟨hden, habs⟩
        obtain ⟨n, hn⟩ := exists_integerExponent?_eq_some hden habs
        rw [hinteger] at hn
        cases hn
      simp only [← and_assoc, hnone, false_and, reduceCtorEq]
    | some n =>
      have hexponent := integerExponent?_eq_some_iff.1 hinteger
      have hnum : t.exponent.num = n.toInt := by rw [hexponent, Rat.num_intCast]
      have hden : t.exponent.den = 1 := by rw [hexponent, Rat.den_intCast]
      have hguard : (largestExponent < n.toInt.natAbs ∨ base = 0 ∧ n < 0) ↔
          ¬(n.toInt.natAbs ≤ largestExponent ∧ ¬(base = 0 ∧ n.toInt < 0)) := by
        rw [Int64.lt_iff_toInt_lt, Int64.toInt_zero, not_and_or, not_le, not_not]
      rw [hnum, hden, eq_self_iff_true, true_and]
      simp only [hguard, ite_not]
      split_ifs with hadmitted
      · rw [Option.some.injEq, and_iff_right hadmitted, eq_comm]
      · simp only [hadmitted, false_and]

end Term

/-! ## Numeric products -/

namespace Terms

/-- The product of the powers of a list of terms, where each base has a value. -/
def powers (value : String → Rat) (ts : List Term) : Rat :=
  (ts.map fun t => value t.base ^ t.exponent.num).prod

/-- The number that a list of numeric terms stands for. -/
def number (ts : List Term) : Rat :=
  powers baseValue ts

theorem powers_cons (value : String → Rat) (t : Term) (ts : List Term) :
    powers value (t :: ts) = value t.base ^ t.exponent.num * powers value ts :=
  rfl

theorem powers_append (value : String → Rat) (ts us : List Term) :
    powers value (ts ++ us) = powers value ts * powers value us := by
  simp [powers]

/-- The value of a list of terms is that of the first term times that of the others, if both have
one. -/
theorem number?_cons_eq_some_iff {t : Term} {ts : List Term} {v : Rat} :
    number? (t :: ts) = some v ↔ ∃ x y, t.number? = some x ∧ number? ts = some y ∧ x * y = v := by
  rw [number?]
  cases t.number? with
  | none => simp
  | some x =>
    cases number? ts with
    | none => simp
    | some y => simp

/-- The value of a list of terms is its number, if each term has one. -/
theorem number?_eq_some_iff {ts : List Term} {v : Rat} :
    number? ts = some v ↔ (∀ t ∈ ts, t.HasNumber) ∧ v = number ts := by
  induction ts generalizing v with
  | nil => simp [number?, number, powers, eq_comm]
  | cons t ts ih =>
    rw [number?_cons_eq_some_iff, List.forall_mem_cons, number, powers_cons]
    constructor
    · rintro ⟨x, y, hx, hy, rfl⟩
      obtain ⟨ht, rfl⟩ := Term.number?_eq_some_iff.1 hx
      obtain ⟨hts, rfl⟩ := ih.1 hy
      exact ⟨⟨ht, hts⟩, rfl⟩
    · rintro ⟨⟨ht, hts⟩, rfl⟩
      exact ⟨_, _, Term.number?_eq_some_iff.2 ⟨ht, rfl⟩, ih.2 ⟨hts, rfl⟩, rfl⟩

/-- The value of a list of terms does not depend on their order. -/
theorem number?_perm {ts us : List Term} (h : ts.Perm us) : number? ts = number? us := by
  have hnumber : number ts = number us := (h.map _).prod_eq
  refine Option.ext fun v => ?_
  rw [number?_eq_some_iff, number?_eq_some_iff, hnumber]
  simp only [h.mem_iff]

/-! ## Powers of the canonical form -/

/-- A term takes part in a product with a value for each base: its exponent is an integer, and a
zero has no negative exponent. -/
structure IsPower (value : String → Rat) (t : Term) : Prop where
  /-- The exponent is an integer. -/
  den_eq_one : t.exponent.den = 1
  /-- A zero has no negative exponent. -/
  nonneg_of_eq_zero : value t.base = 0 → 0 ≤ t.exponent

variable {value : String → Rat}

/-- Two powers of one base are one power with the sum of the exponents. -/
theorem IsPower.add {g t : Term} (hg : IsPower value g) (ht : IsPower value t)
    (hbase : g.base = t.base) : IsPower value (g.withExponent (g.exponent + t.exponent)) ∧
      value g.base ^ (g.exponent + t.exponent).num =
        value g.base ^ g.exponent.num * value t.base ^ t.exponent.num := by
  have hnonneg : value g.base = 0 → 0 ≤ g.exponent ∧ 0 ≤ t.exponent := fun hzero =>
    ⟨hg.nonneg_of_eq_zero hzero, ht.nonneg_of_eq_zero (hbase ▸ hzero)⟩
  refine ⟨⟨?_, fun hzero => ?_⟩, ?_⟩
  · show (g.exponent + t.exponent).den = 1
    rw [Numeral.add_eq_intCast hg.den_eq_one ht.den_eq_one, Rat.den_intCast]
  · obtain ⟨hg0, ht0⟩ := hnonneg hzero
    exact add_nonneg hg0 ht0
  · rw [← hbase]
    exact Numeral.zpow_num_add hg.den_eq_one ht.den_eq_one hnonneg

/-- Adding a term to the groups multiplies the product by its power. -/
theorem powers_insert {t : Term} {gs : List Term} (ht : IsPower value t)
    (hgs : ∀ g ∈ gs, IsPower value g) :
    (∀ g ∈ insert t gs, IsPower value g) ∧
      powers value (insert t gs) = powers value gs * value t.base ^ t.exponent.num := by
  induction gs with
  | nil =>
    refine ⟨List.forall_mem_singleton.2 ht, ?_⟩
    rw [insert, powers_cons, mul_comm]
  | cons g gs ih =>
    obtain ⟨hg, hrest⟩ := List.forall_mem_cons.1 hgs
    obtain ⟨hinsert, hpowers⟩ := ih hrest
    unfold insert
    split
    · next hbase =>
      obtain ⟨hsum, hpower⟩ := hg.add ht hbase
      refine ⟨List.forall_mem_cons.2 ⟨hsum, hrest⟩, ?_⟩
      rw [powers_cons, powers_cons]
      show value g.base ^ (g.exponent + t.exponent).num * _ = _
      rw [hpower]
      ring
    · refine ⟨List.forall_mem_cons.2 ⟨hg, hinsert⟩, ?_⟩
      rw [powers_cons, powers_cons, hpowers]
      ring

/-- Collecting the terms of a list keeps the product of their powers, if the neutral base has the
value one. -/
theorem powers_collect (hone : value "1" = 1) {ts : List Term} (h : ∀ t ∈ ts, IsPower value t) :
    (∀ g ∈ collect ts, IsPower value g) ∧ powers value (collect ts) = powers value ts := by
  -- on the end of the list, where the fold takes its last step
  induction ts using List.reverseRecOn with
  | nil => exact ⟨by simp [collect], rfl⟩
  | append_singleton ts t ih =>
    obtain ⟨hts, ht⟩ := List.forall_mem_append.1 h
    obtain ⟨hcollect, hpowers⟩ := ih hts
    have ht : IsPower value t := ht t (by simp)
    have happend : powers value (ts ++ [t]) = powers value ts * value t.base ^ t.exponent.num := by
      rw [powers_append, powers_cons]
      simp [powers]
    rw [collect_append_singleton, happend]
    split
    · next hneutral =>
      have hbase : t.base = "1" := by simpa [Term.isNeutral] using hneutral
      refine ⟨hcollect, ?_⟩
      rw [hpowers, hbase, hone, one_zpow, mul_one]
    · obtain ⟨hinsert, hstep⟩ := powers_insert ht hcollect
      exact ⟨hinsert, by rw [hstep, hpowers]⟩

/-- Powers with exponent zero do not matter, and neither does the order of the others. -/
theorem powers_filter_append (gs : List Term) :
    powers value ((gs.filter fun t => 0 < t.exponent) ++ gs.filter fun t => t.exponent < 0) =
      powers value gs := by
  rw [powers_append]
  induction gs with
  | nil => simp [powers]
  | cons g gs ih =>
    rw [powers_cons, ← ih]
    rcases lt_trichotomy g.exponent 0 with hneg | hzero | hpos
    · rw [List.filter_cons_of_neg (by simpa using hneg.le), List.filter_cons_of_pos (by simpa),
        powers_cons]
      ring
    · rw [List.filter_cons_of_neg (by simp [hzero]), List.filter_cons_of_neg (by simp [hzero]),
        hzero, Rat.num_zero, zpow_zero, one_mul]
    · rw [List.filter_cons_of_pos (by simpa), List.filter_cons_of_neg (by simpa using hpos.le),
        powers_cons]
      ring

/-- The canonical form keeps the product of the powers. -/
theorem powers_reduce (hone : value "1" = 1) {ts : List Term} (h : ∀ t ∈ ts, IsPower value t) :
    powers value (reduce ts) = powers value ts := by
  obtain ⟨-, hcollect⟩ := powers_collect hone h
  rw [reduce, powers_filter_append, hcollect]

/-- The value of a base, where a zero counts as one. -/
def nonzeroValue (base : String) : Rat :=
  if baseValue base = 0 then 1 else baseValue base

/-- The product without the zero bases. -/
theorem powers_nonzeroValue {ts : List Term} (h : ∀ t ∈ ts, t.IsNumeric) :
    powers nonzeroValue ts = number (ts.filter fun t => !t.hasZeroBase) := by
  induction ts with
  | nil => rfl
  | cons t ts ih =>
    obtain ⟨ht, hts⟩ := List.forall_mem_cons.1 h
    rw [powers_cons, ih hts, nonzeroValue]
    by_cases hzero : t.hasZeroBase = true
    · rw [if_pos (ht.hasZeroBase_iff.1 hzero), one_zpow, one_mul,
        List.filter_cons_of_neg (by simp [hzero])]
    · have hvalue : ¬baseValue t.base = 0 := fun hb => hzero (ht.hasZeroBase_iff.2 hb)
      rw [if_neg hvalue, List.filter_cons_of_pos (by simp [hzero]), number, number, powers_cons]

/-- A zero base of a list whose canonical form has a number is not divided by on the whole. -/
theorem total_nonneg_of_hasZeroBase {ts : List Term} (h : ∀ t ∈ reduce ts, t.HasNumber)
    {t : Term} (hzero : t.hasZeroBase = true) : 0 ≤ total t.base ts := by
  by_cases htotal : total t.base ts = 0
  · exact htotal.ge
  · have hne : t.base ≠ "1" := by
      intro hone
      rw [Term.hasZeroBase, hone] at hzero
      revert hzero
      decide +kernel
    have hmem : (⟨t.base, total t.base ts⟩ : Term) ∈ reduce ts :=
      mem_reduce_iff.2 ⟨hne, rfl, htotal⟩
    exact (h _ hmem).nonneg_of_hasZeroBase hzero

/-- Where the exponents of each zero base cancel, the canonical form has the number of the other
terms. -/
theorem number_reduce_of_cancel {ts : List Term} (h : ∀ t ∈ ts, t.IsNumeric)
    (hcancel : ∀ t ∈ ts, t.hasZeroBase = true → total t.base ts = 0) :
    number (reduce ts) = number (ts.filter fun t => !t.hasZeroBase) := by
  have hone : nonzeroValue "1" = 1 := by
    rw [nonzeroValue, baseValue_one, if_neg one_ne_zero]
  have hpower : ∀ t ∈ ts, IsPower nonzeroValue t := by
    intro t ht
    refine ⟨(h t ht).den_eq_one, fun hzero => ?_⟩
    -- no base has the value zero
    unfold nonzeroValue at hzero
    split at hzero
    · exact absurd hzero one_ne_zero
    · next hne => exact absurd hzero hne
  -- the zero bases are gone from the canonical form
  have hnonzero : ∀ t ∈ reduce ts, baseValue t.base = nonzeroValue t.base := by
    intro t ht
    obtain ⟨u, hu, hbase⟩ := exists_base_of_mem_reduce ht
    obtain ⟨-, htotal, hne⟩ := mem_reduce_iff.1 ht
    have hvalue : ¬baseValue t.base = 0 := by
      intro hzero
      have htotalu := hcancel u hu ((h u hu).hasZeroBase_iff.2 (hbase ▸ hzero))
      exact hne (htotal.trans (hbase ▸ htotalu))
    rw [nonzeroValue, if_neg hvalue]
  calc number (reduce ts) = powers nonzeroValue (reduce ts) := by
        unfold number powers
        congr 1
        refine List.map_congr_left fun t ht => ?_
        rw [hnonzero t ht]
    _ = powers nonzeroValue ts := powers_reduce hone hpower
    _ = number (ts.filter fun t => !t.hasZeroBase) := powers_nonzeroValue h

/-- Where the exponents of a zero base do not cancel, the canonical form has the number zero. -/
theorem number_reduce_of_zero {ts : List Term} {t : Term} (ht : t.IsNumeric)
    (hzero : t.hasZeroBase = true) (htotal : total t.base ts ≠ 0) : number (reduce ts) = 0 := by
  have hvalue : baseValue t.base = 0 := ht.hasZeroBase_iff.1 hzero
  have hne : t.base ≠ "1" := fun hbase => by
    rw [hbase, baseValue_one] at hvalue
    exact one_ne_zero hvalue
  have hmem : (⟨t.base, total t.base ts⟩ : Term) ∈ reduce ts :=
    mem_reduce_iff.2 ⟨hne, rfl, htotal⟩
  have hfactor : baseValue t.base ^ (total t.base ts).num = 0 := by
    rw [hvalue, zero_zpow _ (Rat.num_ne_zero.2 htotal)]
  exact List.prod_eq_zero (List.mem_map.2 ⟨_, hmem, hfactor⟩)

/-- The number of the canonical form of numeric terms is their product, where each zero base counts
as one if its exponents cancel, and as zero otherwise. -/
theorem number_reduce {ts : List Term} (h : ∀ t ∈ ts, t.IsNumeric) :
    number (reduce ts) = number (ts.filter fun t => !t.hasZeroBase) *
      if ∀ t ∈ ts, t.hasZeroBase = true → total t.base ts = 0 then 1 else 0 := by
  split_ifs with hcancel
  · rw [number_reduce_of_cancel h hcancel, mul_one]
  · push Not at hcancel
    obtain ⟨t, ht, hzero, htotal⟩ := hcancel
    rw [number_reduce_of_zero (h t ht) hzero htotal, mul_zero]

/-- The canonical form of numeric terms has their product for its number, if nothing is divided by
zero. -/
theorem number_reduce_of_nonneg {ts : List Term} (h : ∀ t ∈ ts, t.IsNumeric)
    (hnonneg : ∀ t ∈ ts, t.hasZeroBase = true → 0 ≤ t.exponent) :
    number (reduce ts) = number ts := by
  refine powers_reduce baseValue_one fun t ht => ⟨(h t ht).den_eq_one, fun hzero => ?_⟩
  exact hnonneg t ht ((h t ht).hasZeroBase_iff.2 hzero)

/-- An expression has the product of its factors for its value, if these are numeric, nothing is
divided by zero, and no base has a large total. -/
theorem number?_reduce {ts : List Term} (h : ∀ t ∈ ts, t.IsNumeric)
    (hnonneg : ∀ t ∈ ts, t.hasZeroBase = true → 0 ≤ t.exponent)
    (hsize : ∀ t ∈ ts, (total t.base ts).num.natAbs ≤ largestExponent) :
    number? (reduce ts) = some (number ts) := by
  have hpower : ∀ t ∈ ts, IsPower baseValue t := fun t ht =>
    ⟨(h t ht).den_eq_one, fun hzero => hnonneg t ht ((h t ht).hasZeroBase_iff.2 hzero)⟩
  obtain ⟨hcollect, -⟩ := powers_collect baseValue_one hpower
  refine number?_eq_some_iff.2 ⟨fun t ht => ?_, (number_reduce_of_nonneg h hnonneg).symm⟩
  obtain ⟨u, hu, hbase⟩ := exists_base_of_mem_reduce ht
  obtain ⟨-, htotal, -⟩ := mem_reduce_iff.1 ht
  have hgroup : IsPower baseValue t := by
    rcases List.mem_append.1 ht with ht | ht
    · exact hcollect t (List.mem_filter.1 ht).1
    · exact hcollect t (List.mem_filter.1 ht).1
  have hread : (Decimal.read t.base.toList).isSome = true := hbase ▸ (h u hu).isSome_read
  have hnumeric : t.IsNumeric := ⟨hread, hgroup.den_eq_one⟩
  refine ⟨hnumeric, ?_, fun hzero => ?_⟩
  · rw [htotal, ← hbase]
    exact hsize u hu
  · exact hgroup.nonneg_of_eq_zero (hnumeric.hasZeroBase_iff.1 hzero)

end Terms

/-! ## Numeric texts -/

/-- A text that is accepted as an exponent has a numeric value. -/
theorem Operand.exists_number?_of_power_text {s : String} {x : Operand} {e : Expression}
    (h : x.power (.text s) = .ok e) :
    ∃ ts v, Terms.read s = .ok ts ∧ (Expression.ofTerms ts).number? = some v := by
  obtain ⟨a, -, hraise⟩ := bind_eq_ok_iff.1 h
  obtain ⟨v, hv, -⟩ := Expression.raisedTo_eq_ok_iff.1 hraise
  obtain ⟨d, hd, hnumber⟩ := (Expression.exponentValue_eq_ok_iff (by simp)).1 hv
  rw [toExpression_text] at hd
  obtain ⟨ts, hread, rfl⟩ := map_eq_ok_iff.1 hd
  exact ⟨ts, v, hread, hnumber⟩

/-- If the terms of a text are numeric and its expression has a value, then each zero base occurs
with exponents whose sum is not negative. The value is the product of the terms with other bases,
and of a zero for each zero base whose exponents do not cancel. Where no zero has a negative
exponent, it is the product of all terms. The first part holds of every text that is accepted as an
exponent. -/
theorem number?_text :
    (∀ (s : String) (ts : List Term) (e : Expression) (v : Rat),
      Terms.read s = .ok ts → (∀ t ∈ ts, t.IsNumeric) →
      (Operand.text s).toExpression = .ok e → e.number? = some v →
        (∀ t ∈ ts, t.hasZeroBase = true → 0 ≤ Terms.total t.base ts) ∧
        (v = Terms.number (ts.filter fun t => !t.hasZeroBase) *
          if ∀ t ∈ ts, t.hasZeroBase = true → Terms.total t.base ts = 0 then 1 else 0) ∧
        ((∀ t ∈ ts, t.hasZeroBase = true → 0 ≤ t.exponent) → v = Terms.number ts)) ∧
    ∀ (s : String) (x : Operand) (e : Expression), x.power (.text s) = .ok e →
      ∃ ts, Terms.read s = .ok ts ∧
        ∀ t ∈ ts, t.hasZeroBase = true → 0 ≤ Terms.total t.base ts := by
  constructor
  · intro s ts e v hread hnumeric hexpression hv
    rw [Operand.toExpression_text, hread] at hexpression
    cases hexpression
    obtain ⟨hnumber, rfl⟩ := Terms.number?_eq_some_iff.1 hv
    exact ⟨fun t _ => Terms.total_nonneg_of_hasZeroBase hnumber, Terms.number_reduce hnumeric,
      Terms.number_reduce_of_nonneg hnumeric⟩
  · intro s x e hpower
    obtain ⟨ts, v, hread, hv⟩ := Operand.exists_number?_of_power_text hpower
    obtain ⟨hnumber, -⟩ := Terms.number?_eq_some_iff.1 hv
    exact ⟨ts, hread, fun t _ => Terms.total_nonneg_of_hasZeroBase hnumber⟩

/-- A zero that cancels does not show in the value of the other factors. -/
theorem number?_text_cancelled :
    Terms.read "0 / 0 * 2^3 / 4" = .ok [⟨"0", 1⟩, ⟨"0", -1⟩, ⟨"2", 3⟩, ⟨"4", -1⟩] ∧
    (Operand.text "0 / 0 * 2^3 / 4").toExpression = .ok ⟨[⟨"2", 3⟩, ⟨"4", -1⟩]⟩ ∧
    Expression.number? ⟨[⟨"2", 3⟩, ⟨"4", -1⟩]⟩ = some 2 ∧
    2 = Terms.number [⟨"2", 3⟩, ⟨"4", -1⟩] ∧
    (Operand.term ⟨"m", 1⟩).power (.text "0 / 0 * 2^3 / 4") =
      .ok ((Expression.ofTerms [⟨"m", 1⟩]).pow 2) ∧
    0 ≤ Terms.total "0" [⟨"0", 1⟩, ⟨"0", -1⟩, ⟨"2", 3⟩, ⟨"4", -1⟩] := by
  have hread : Terms.read "0 / 0 * 2^3 / 4" =
      .ok [⟨"0", 1⟩, ⟨"0", -1⟩, ⟨"2", 3⟩, ⟨"4", -1⟩] := by decide +kernel
  have hnumeric : ∀ t ∈ [(⟨"0", 1⟩ : Term), ⟨"0", -1⟩, ⟨"2", 3⟩, ⟨"4", -1⟩], t.IsNumeric := by
    decide +kernel
  have hreduce : Terms.reduce [⟨"0", 1⟩, ⟨"0", -1⟩, ⟨"2", 3⟩, ⟨"4", -1⟩] =
      [⟨"2", 3⟩, ⟨"4", -1⟩] := by decide +kernel
  have hexpression := Operand.toExpression_text_of_read hread
  rw [hreduce] at hexpression
  have hnumber : Expression.number? ⟨[⟨"2", 3⟩, ⟨"4", -1⟩]⟩ = some 2 := by decide +kernel
  have hexponent := (Expression.exponentValue_eq_ok_iff (by simp)).2 ⟨_, hexpression, hnumber⟩
  have hpower := Operand.power_eq_ok (x := .term ⟨"m", 1⟩) rfl hexponent
  obtain ⟨hvalue, haccepted⟩ := number?_text
  obtain ⟨-, hproduct, -⟩ := hvalue _ _ _ _ hread hnumeric hexpression hnumber
  obtain ⟨ts, hts, hnonneg⟩ := haccepted _ _ _ hpower
  rw [hread] at hts
  obtain rfl := Except.ok.inj hts
  refine ⟨hread, hexpression, hnumber, hproduct.trans ?_, hpower, ?_⟩
  · decide +kernel
  · exact hnonneg ⟨"0", 1⟩ (by simp) (by decide +kernel)

/-- A text may divide by zero and have a value all the same, since a zero cancels before anything is
evaluated; so it is accepted as an exponent. -/
theorem number?_zero_over_zero :
    (¬∀ (s : String) (ts : List Term) (e : Expression) (v : Rat),
      Terms.read s = .ok ts → (∀ t ∈ ts, t.IsNumeric) →
      (Operand.text s).toExpression = .ok e → e.number? = some v →
        ∀ t ∈ ts, ¬(t.hasZeroBase = true ∧ t.exponent < 0)) ∧
    (Operand.term ⟨"m", 1⟩).power (.text "0 / 0") =
      .ok ((Expression.ofTerms [⟨"m", 1⟩]).pow 1) := by
  have hread : Terms.read "0 / 0" = .ok [⟨"0", 1⟩, ⟨"0", -1⟩] := by decide +kernel
  have hnumeric : ∀ t ∈ [(⟨"0", 1⟩ : Term), ⟨"0", -1⟩], t.IsNumeric := by decide +kernel
  have hreduce : Terms.reduce [⟨"0", 1⟩, ⟨"0", -1⟩] = [] := by decide +kernel
  have hexpression := Operand.toExpression_text_of_read hread
  rw [hreduce] at hexpression
  have hexponent := (Expression.exponentValue_eq_ok_iff (by simp)).2
    ⟨_, hexpression, Expression.number?_one⟩
  refine ⟨fun h => ?_, Operand.power_eq_ok rfl hexponent⟩
  refine h _ _ _ _ hread hnumeric hexpression Expression.number?_one ⟨"0", -1⟩ (by simp) ⟨?_, ?_⟩
  · decide +kernel
  · decide +kernel

end UnitAlgebra
