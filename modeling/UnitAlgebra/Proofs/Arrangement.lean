import Mathlib.Data.List.Basic
import UnitAlgebra.Expression.Basic
import UnitAlgebra.Proofs.Canonical

/-!
# The order of the canonical form

The canonical form of a list has one term for each base with a total, and it has them in an order
that the list decides: the positive totals in front of the negative ones, and the bases with totals
of one sign as they first occur (`Precedes`). Partial totals play no part, so a base keeps its place
even if its exponents cancel on the way. `IsArrangement` says all this of a list of terms, and no
two lists satisfy it (`IsArrangement.eq`), so it is a full specification of `reduce`. The check of
`checkCanonical` goes through a list once; `checkCanonicalAfter_iff` says what it has found out at
each term, and `checkCanonical_iff` that it accepts the canonical lists.
-/

namespace UnitAlgebra.Terms

/-! ## First occurrences -/

/-- The place at which a base first occurs in a list of terms. -/
def firstIndex (ts : List Term) (base : String) : Nat :=
  (ts.map Term.base).idxOf base

/-- A further term does not move the bases that occur before it. -/
theorem firstIndex_append_of_mem {ts : List Term} {base : String} (us : List Term)
    (h : base ∈ ts.map Term.base) : firstIndex (ts ++ us) base = firstIndex ts base := by
  rw [firstIndex, List.map_append, List.idxOf_append_of_mem h, firstIndex]

/-- A base that occurs has its place in the list. -/
theorem firstIndex_lt_length {ts : List Term} {base : String} (h : base ∈ ts.map Term.base) :
    firstIndex ts base < ts.length := by
  have hlt := List.idxOf_lt_length_of_mem h
  rwa [List.length_map] at hlt

/-- A base that does not occur before the last term has the place of the last term. -/
theorem firstIndex_append_singleton {ts : List Term} {t : Term} (h : t.base ∉ ts.map Term.base) :
    firstIndex (ts ++ [t]) t.base = ts.length := by
  rw [firstIndex, List.map_append, List.idxOf_append_of_notMem h, List.length_map]
  simp

/-- The bases of a list are listed as they first occur. -/
theorem pairwise_bases (ts : List Term) :
    (bases ts).Pairwise fun b c => firstIndex ts b < firstIndex ts c := by
  -- on the end of the list, where a base is new or has its place already
  induction ts using List.reverseRecOn with
  | nil => exact .nil
  | append_singleton ts t ih =>
    have hold : ∀ b ∈ bases ts, firstIndex (ts ++ [t]) b = firstIndex ts b := fun b hb =>
      firstIndex_append_of_mem [t] (mem_bases_iff.1 hb).2
    have hbefore : (bases ts).Pairwise fun b c =>
        firstIndex (ts ++ [t]) b < firstIndex (ts ++ [t]) c :=
      ih.imp_of_mem fun hb hc hlt => by rwa [hold _ hb, hold _ hc]
    rw [bases_append_singleton]
    split_ifs with h
    · exact hbefore
    · rw [not_or] at h
      have hne : t.base ≠ "1" := by simpa [Term.isNeutral] using h.1
      have hnew : t.base ∉ ts.map Term.base := fun hmem => h.2 (mem_bases_iff.2 ⟨hne, hmem⟩)
      refine List.pairwise_append.2 ⟨hbefore, List.pairwise_singleton _ _, fun b hb c hc => ?_⟩
      rw [List.mem_singleton.1 hc, hold b hb, firstIndex_append_singleton hnew]
      exact firstIndex_lt_length (mem_bases_iff.1 hb).2

/-! ## Arrangements -/

/-- A term stands in front of another in the canonical form of a list: it has the positive exponent
of the two, or its base is the first of the two to occur where the exponents have one sign. -/
def Precedes (ts : List Term) (t u : Term) : Prop :=
  (0 < t.exponent ∧ u.exponent < 0) ∨
    ((0 < t.exponent ↔ 0 < u.exponent) ∧ firstIndex ts t.base < firstIndex ts u.base)

/-- No two terms stand in front of each other. -/
theorem Precedes.asymm {ts : List Term} {t u : Term} (htu : Precedes ts t u) :
    ¬Precedes ts u t := by
  rintro (⟨hu, ht⟩ | ⟨hsign, hut⟩)
  · rcases htu with ⟨htpos, -⟩ | ⟨hiff, -⟩
    · exact lt_asymm htpos ht
    · exact lt_asymm (hiff.2 hu) ht
  · rcases htu with ⟨htpos, huneg⟩ | ⟨-, hlt⟩
    · exact lt_asymm (hsign.2 htpos) huneg
    · exact lt_asymm hlt hut

/-- What the canonical form of `ts` is: exactly one term for each base that is not neutral and has a
total, with this total for its exponent, in the order of signs and first occurrences. -/
structure IsArrangement (ts us : List Term) : Prop where
  /-- The terms are the bases that are not neutral with their totals, where these are not zero. -/
  mem_iff : ∀ t, t ∈ us ↔ t.base ≠ "1" ∧ t.exponent = total t.base ts ∧ t.exponent ≠ 0
  /-- No base has two terms. -/
  nodup : (us.map Term.base).Nodup
  /-- Each term stands in front of those after it. -/
  pairwise : us.Pairwise (Precedes ts)

/-- The terms of the canonical form are in order. -/
theorem pairwise_reduce (ts : List Term) : (reduce ts).Pairwise (Precedes ts) := by
  rw [reduce_eq, List.pairwise_append]
  simp only [List.pairwise_map, List.mem_map, List.mem_filter, decide_eq_true_eq]
  refine ⟨?_, ?_, ?_⟩
  · -- among the positive totals
    refine ((pairwise_bases ts).filter _).imp_of_mem fun hb hc hlt => .inr ⟨?_, hlt⟩
    simp only [List.mem_filter, decide_eq_true_eq] at hb hc
    exact iff_of_true hb.2 hc.2
  · -- among the negative totals
    refine ((pairwise_bases ts).filter _).imp_of_mem fun hb hc hlt => .inr ⟨?_, hlt⟩
    simp only [List.mem_filter, decide_eq_true_eq] at hb hc
    exact iff_of_false hb.2.not_gt hc.2.not_gt
  · rintro _ ⟨b, ⟨-, hpos⟩, rfl⟩ _ ⟨c, ⟨-, hneg⟩, rfl⟩
    exact .inl ⟨hpos, hneg⟩

/-- The canonical form of a list is an arrangement of it. -/
theorem isArrangement_reduce (ts : List Term) : IsArrangement ts (reduce ts) where
  mem_iff _ := mem_reduce_iff
  nodup := (isCanonical_reduce ts).nodup
  pairwise := pairwise_reduce ts

/-- A list has one arrangement only. -/
theorem IsArrangement.eq {ts us vs : List Term} (hus : IsArrangement ts us)
    (hvs : IsArrangement ts vs) : us = vs := by
  have hperm : us.Perm vs := by
    refine (List.perm_ext_iff_of_nodup hus.nodup.of_map hvs.nodup.of_map).2 fun t => ?_
    rw [hus.mem_iff, hvs.mem_iff]
  exact hperm.eq_of_pairwise (fun _ _ _ _ htu hut => absurd hut htu.asymm) hus.pairwise
    hvs.pairwise

/-- A list is the canonical form of another exactly when it is an arrangement of it. -/
theorem reduce_eq_iff_isArrangement {ts us : List Term} :
    reduce ts = us ↔ IsArrangement ts us := by
  constructor
  · rintro rfl
    exact isArrangement_reduce ts
  · exact (isArrangement_reduce ts).eq

/-! ## The check -/

/-- A term in front of a list keeps it canonical when its base is new and not neutral, its exponent
is not zero, and nothing positive follows if it is negative. -/
theorem isCanonical_cons_iff {t : Term} {ts : List Term} :
    IsCanonical (t :: ts) ↔
      (t.exponent ≠ 0 ∧ t.isNeutral = false ∧ ∀ u ∈ ts, u.base ≠ t.base) ∧
        (t.exponent < 0 → ∀ u ∈ ts, u.exponent < 0) ∧ IsCanonical ts := by
  constructor
  · rintro ⟨hnodup, hneutral, hzero, hordered⟩
    rw [List.forall_mem_cons] at hneutral hzero
    rw [List.map_cons, List.nodup_cons] at hnodup
    rw [List.pairwise_cons] at hordered
    refine ⟨⟨hzero.1, hneutral.1, fun u hu hbase => ?_⟩, fun ht u hu => hordered.1 u hu ht,
      hnodup.2, hneutral.2, hzero.2, hordered.2⟩
    exact hnodup.1 (List.mem_map.2 ⟨u, hu, hbase⟩)
  · rintro ⟨⟨hzero, hneutral, hnew⟩, hneg, hnodup, hneutrals, hzeros, hordered⟩
    have hnotMem : t.base ∉ ts.map Term.base := fun hmem => by
      obtain ⟨u, hu, hbase⟩ := List.mem_map.1 hmem
      exact hnew u hu hbase
    exact ⟨List.nodup_cons.2 ⟨hnotMem, hnodup⟩, List.forall_mem_cons.2 ⟨hneutral, hneutrals⟩,
      List.forall_mem_cons.2 ⟨hzero, hzeros⟩,
      List.pairwise_cons.2 ⟨fun u hu ht => hneg ht u hu, hordered⟩⟩

/-- The check of the rest of a list accepts exactly the canonical ones without a base that was seen
before, and without a positive exponent if a negative one was seen. -/
theorem checkCanonicalAfter_iff {seen : List String} {negative : Bool} {ts : List Term} :
    checkCanonicalAfter seen negative ts = true ↔
      IsCanonical ts ∧ (∀ t ∈ ts, t.base ∉ seen) ∧
        (negative = true → ∀ t ∈ ts, t.exponent < 0) := by
  induction ts generalizing seen negative with
  | nil => simp [checkCanonicalAfter, isCanonical_nil]
  | cons t ts ih =>
    rw [checkCanonicalAfter, isCanonical_cons_iff, List.forall_mem_cons, List.forall_mem_cons]
    -- the bases seen at the next term are those seen here and the one of the term
    have hseen : (∀ u ∈ ts, u.base ∉ t.base :: seen) ↔
        (∀ u ∈ ts, u.base ≠ t.base) ∧ ∀ u ∈ ts, u.base ∉ seen := by
      simp only [List.mem_cons, not_or, ← forall₂_and]
    split_ifs with hbad hneg hflag
    · refine iff_of_false (by simp) ?_
      rintro ⟨⟨⟨hzero, hneutral, -⟩, -⟩, ⟨hbase, -⟩, -⟩
      rcases hbad with h | h | h
      · exact hzero h
      · rw [hneutral] at h
        cases h
      · exact hbase h
    · rw [ih, hseen]
      simp only [not_or, Bool.not_eq_true] at hbad
      obtain ⟨hzero, hneutral, hbase⟩ := hbad
      constructor
      · rintro ⟨hts, ⟨hnew, hold⟩, hall⟩
        exact ⟨⟨⟨hzero, hneutral, hnew⟩, fun _ => hall rfl, hts⟩, ⟨hbase, hold⟩,
          fun _ => ⟨hneg, hall rfl⟩⟩
      · rintro ⟨⟨⟨-, -, hnew⟩, hall, hts⟩, ⟨-, hold⟩, -⟩
        exact ⟨hts, ⟨hnew, hold⟩, fun _ => hall hneg⟩
    · -- an exponent that is not negative follows a negative one
      exact iff_of_false (by simp) fun h => hneg (h.2.2 hflag).1
    · rw [ih, hseen]
      simp only [not_or, Bool.not_eq_true] at hbad
      obtain ⟨hzero, hneutral, hbase⟩ := hbad
      constructor
      · rintro ⟨hts, ⟨hnew, hold⟩, -⟩
        exact ⟨⟨⟨hzero, hneutral, hnew⟩, fun h => absurd h hneg, hts⟩, ⟨hbase, hold⟩,
          fun h => absurd h hflag⟩
      · rintro ⟨⟨⟨-, -, hnew⟩, -, hts⟩, ⟨-, hold⟩, -⟩
        exact ⟨hts, ⟨hnew, hold⟩, fun h => by cases h⟩

/-- The check accepts exactly the canonical lists. -/
theorem checkCanonical_iff {ts : List Term} : checkCanonical ts = true ↔ IsCanonical ts := by
  rw [checkCanonical, checkCanonicalAfter_iff]
  simp

instance (ts : List Term) : Decidable (IsCanonical ts) :=
  decidable_of_iff _ checkCanonical_iff

/-- A list is its own canonical form exactly when it is canonical. -/
theorem reduce_eq_self_iff {ts : List Term} : reduce ts = ts ↔ IsCanonical ts :=
  ⟨fun h => h ▸ isCanonical_reduce ts, reduce_of_isCanonical⟩

/-- The canonical form of a list is its only arrangement. A list is its own canonical form exactly
when it passes the check; so a canonical form stays as it is, and the terms of an expression that is
made of any terms pass the check. -/
theorem reduce_arranges (ts : List Term) :
    (∀ us, reduce ts = us ↔ IsArrangement ts us) ∧
    (reduce ts = ts ↔ checkCanonical ts = true) ∧
    reduce (reduce ts) = reduce ts ∧
    checkCanonical (Expression.ofTerms ts).terms = true := by
  have hcanonical : IsCanonical (reduce ts) := isCanonical_reduce ts
  refine ⟨fun us => reduce_eq_iff_isArrangement, ?_, reduce_of_isCanonical hcanonical, ?_⟩
  · rw [reduce_eq_self_iff, checkCanonical_iff]
  · exact checkCanonical_iff.2 hcanonical

/-- A base whose partial totals change their sign twice keeps the place of its first occurrence. -/
example : reduce [⟨"s", 1⟩, ⟨"m", 1⟩, ⟨"s", -3⟩, ⟨"kg", -1⟩, ⟨"1", 2⟩, ⟨"s", 4⟩] =
    [⟨"s", 2⟩, ⟨"m", 1⟩, ⟨"kg", -1⟩] := by
  decide +kernel

end UnitAlgebra.Terms
