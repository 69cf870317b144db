import Mathlib.Algebra.BigOperators.Group.List.Basic
import Mathlib.Algebra.Order.Ring.Rat
import Mathlib.Data.List.Induction
import Mathlib.Data.List.Nodup
import UnitAlgebra.Terms.Canonical

/-!
# The canonical form of a list of terms

Two functions of a list say what its canonical form is: `bases`, the bases that are not neutral, in
the order in which they first occur, and `total`, the sum of the exponents of a base. The groups
that `collect` makes are the bases with their totals (`collect_eq`), so `reduce` keeps the bases
with a positive total and then those with a negative one (`reduce_eq`). From there everything else
is read off: which terms the canonical form has (`mem_reduce_iff`), that it is canonical
(`isCanonical_reduce`), that it keeps the totals (`total_reduce`), and that a canonical list is its
own canonical form (`reduce_of_isCanonical`).
-/

namespace UnitAlgebra.Terms

/-- The sum of the exponents of a base. -/
def total (base : String) (ts : List Term) : Rat :=
  ((ts.filter fun t => t.base == base).map Term.exponent).sum

/-- The bases that are not neutral, each once, in the order in which they first occur. -/
def bases (ts : List Term) : List String :=
  ((ts.filter fun t => !t.isNeutral).map Term.base).eraseDups

/-- The term of a base with its total in a list. -/
def group (ts : List Term) (base : String) : Term :=
  ⟨base, total base ts⟩

/-! ## Totals -/

theorem total_nil (base : String) : total base [] = 0 :=
  rfl

/-- The total of a base in a longer list. -/
theorem total_cons (base : String) (t : Term) (ts : List Term) :
    total base (t :: ts) = (if t.base = base then t.exponent else 0) + total base ts := by
  unfold total
  split_ifs with h <;> simp [h]

/-- Totals add up. -/
theorem total_append (base : String) (ts us : List Term) :
    total base (ts ++ us) = total base ts + total base us := by
  simp [total]

/-- A base that does not occur has the total zero. -/
theorem total_of_notMem {base : String} {ts : List Term} (h : base ∉ ts.map Term.base) :
    total base ts = 0 := by
  induction ts with
  | nil => rfl
  | cons t ts ih =>
    rw [List.map_cons, List.mem_cons, not_or] at h
    rw [total_cons, if_neg (Ne.symm h.1), ih h.2, add_zero]

/-- A base that occurs once has the exponent of its term as its total. -/
theorem total_of_mem {t : Term} {ts : List Term} (hnodup : (ts.map Term.base).Nodup)
    (ht : t ∈ ts) : total t.base ts = t.exponent := by
  induction ts with
  | nil => cases ht
  | cons u ts ih =>
    obtain ⟨hu, hts⟩ := List.nodup_cons.1 hnodup
    rw [total_cons]
    rcases List.mem_cons.1 ht with rfl | ht
    · rw [if_pos rfl, total_of_notMem hu, add_zero]
    · have hne : ¬u.base = t.base := fun h => hu (h ▸ List.mem_map_of_mem ht)
      rw [if_neg hne, ih hts ht, zero_add]

/-- Turning all terms over turns the totals over. -/
theorem total_map_inverse (base : String) (ts : List Term) :
    total base (ts.map Term.inverse) = -total base ts := by
  induction ts with
  | nil => simp [total_nil]
  | cons t ts ih =>
    rw [List.map_cons, total_cons, total_cons, ih]
    by_cases h : t.base = base
    · simp [Term.inverse, Term.withExponent, h, add_comm]
    · simp [Term.inverse, Term.withExponent, h]

/-- Raising all terms to a power multiplies the totals by the exponent. -/
theorem total_map_pow (base : String) (ts : List Term) (n : Rat) :
    total base (ts.map fun t => t.pow n) = total base ts * n := by
  induction ts with
  | nil => simp [total_nil]
  | cons t ts ih =>
    rw [List.map_cons, total_cons, total_cons, ih, add_mul]
    by_cases h : t.base = base
    · simp [Term.pow, Term.withExponent, h]
    · simp [Term.pow, Term.withExponent, h]

/-! ## Bases -/

/-- A base of a list is a base that is not neutral and occurs in it. -/
theorem mem_bases_iff {base : String} {ts : List Term} :
    base ∈ bases ts ↔ base ≠ "1" ∧ base ∈ ts.map Term.base := by
  simp only [bases, List.mem_eraseDups, List.mem_map, List.mem_filter, Term.isNeutral,
    Bool.not_eq_true', beq_eq_false_iff_ne]
  constructor
  · rintro ⟨t, ⟨ht, hne⟩, rfl⟩
    exact ⟨hne, t, ht, rfl⟩
  · rintro ⟨hne, t, ht, rfl⟩
    exact ⟨t, ⟨ht, hne⟩, rfl⟩

/-- A further element of a list is kept unless it occurs before. -/
theorem eraseDups_append_singleton (as : List String) (a : String) :
    (as ++ [a]).eraseDups = if a ∈ as then as.eraseDups else as.eraseDups ++ [a] := by
  rw [List.eraseDups_append]
  by_cases h : a ∈ as
  · simp [List.removeAll, h]
  · simp [List.removeAll, h, List.eraseDups_cons]

/-- A further term adds its base unless it is neutral or its base occurs before. -/
theorem bases_append_singleton (ts : List Term) (t : Term) :
    bases (ts ++ [t]) =
      if t.isNeutral ∨ t.base ∈ bases ts then bases ts else bases ts ++ [t.base] := by
  by_cases hneutral : t.isNeutral
  · simp [bases, hneutral]
  · have hfilter : [t].filter (fun u => !u.isNeutral) = [t] := by simp [hneutral]
    rw [bases, List.filter_append, hfilter, List.map_append, List.map_singleton,
      eraseDups_append_singleton]
    simp only [hneutral, false_or, bases, List.mem_eraseDups, Bool.false_eq_true]

/-- No base is listed twice. -/
theorem nodup_bases (ts : List Term) : (bases ts).Nodup := by
  induction ts using List.reverseRecOn with
  | nil => exact List.nodup_nil
  | append_singleton ts t ih =>
    rw [bases_append_singleton]
    split_ifs with h
    · exact ih
    · rw [not_or] at h
      simpa [List.nodup_append, ih] using fun b hb (e : b = t.base) => h.2 (e ▸ hb)

/-! ## Groups -/

/-- A term is added to the total of its base, if there is a group of this base. -/
theorem insert_map_of_mem {t : Term} {bs : List String} {f : String → Rat} (hnodup : bs.Nodup)
    (ht : t.base ∈ bs) :
    insert t (bs.map fun b => ⟨b, f b⟩) =
      bs.map fun b => ⟨b, f b + if t.base = b then t.exponent else 0⟩ := by
  induction bs with
  | nil => cases ht
  | cons b bs ih =>
    obtain ⟨hb, hbs⟩ := List.nodup_cons.1 hnodup
    rw [List.map_cons, List.map_cons, insert]
    by_cases h : b = t.base
    · -- the group of the base is in front, and no other group has this base
      have hrest : bs.map (fun c => (⟨c, f c⟩ : Term)) =
          bs.map fun c => ⟨c, f c + if t.base = c then t.exponent else 0⟩ := by
        refine List.map_congr_left fun c hc => ?_
        have hne : ¬t.base = c := fun e => hb (by rw [h, e]; exact hc)
        rw [if_neg hne, add_zero]
      rw [if_pos h, if_pos h.symm, hrest]
      rfl
    · have hmem : t.base ∈ bs := (List.mem_cons.1 ht).resolve_left (Ne.symm h)
      rw [if_neg h, if_neg (Ne.symm h), add_zero, ih hbs hmem]

/-- A term whose base has no group becomes the last group. -/
theorem insert_of_notMem {t : Term} {gs : List Term} (ht : t.base ∉ gs.map Term.base) :
    insert t gs = gs ++ [t] := by
  induction gs with
  | nil => rfl
  | cons g gs ih =>
    rw [List.map_cons, List.mem_cons, not_or] at ht
    rw [insert, if_neg (Ne.symm ht.1), ih ht.2, List.cons_append]

/-- A further term is added to the groups unless it is neutral. -/
theorem collect_append_singleton (ts : List Term) (t : Term) :
    collect (ts ++ [t]) = if t.isNeutral then collect ts else insert t (collect ts) := by
  simp [collect]

/-- The groups of a list are its bases with their totals. -/
theorem collect_eq (ts : List Term) : collect ts = (bases ts).map (group ts) := by
  -- on the end of the list, where the fold takes its last step
  induction ts using List.reverseRecOn with
  | nil => rfl
  | append_singleton ts t ih =>
    have hgroup : ∀ b, group (ts ++ [t]) b =
        ⟨b, total b ts + if t.base = b then t.exponent else 0⟩ := fun b => by
      rw [group, total_append, total_cons, total_nil, add_zero]
    rw [collect_append_singleton, bases_append_singleton, ih]
    by_cases hneutral : t.isNeutral
    · -- no base of the list is neutral, so no total changes
      rw [if_pos hneutral, if_pos (.inl hneutral)]
      refine List.map_congr_left fun b hb => ?_
      have hne : ¬t.base = b := by
        rintro rfl
        exact (mem_bases_iff.1 hb).1 (by simpa [Term.isNeutral] using hneutral)
      rw [hgroup, if_neg hne, add_zero, group]
    · rw [if_neg hneutral]
      simp only [hneutral, false_or, Bool.false_eq_true]
      by_cases hmem : t.base ∈ bases ts
      · -- only the total of the base grows
        rw [if_pos hmem]
        simp only [funext hgroup]
        exact insert_map_of_mem (nodup_bases ts) hmem
      · -- the base is new, so its total was zero, and the other totals stay
        have hold : ∀ b ∈ bases ts, group (ts ++ [t]) b = group ts b := fun b hb => by
          have hne : ¬t.base = b := fun e => hmem (e ▸ hb)
          rw [hgroup, if_neg hne, add_zero, group]
        have hnew : total t.base ts = 0 := by
          refine total_of_notMem fun h => hmem (mem_bases_iff.2 ⟨?_, h⟩)
          simpa [Term.isNeutral] using hneutral
        have hbases : t.base ∉ ((bases ts).map (group ts)).map Term.base := by
          simpa [List.map_map, Function.comp_def, group] using hmem
        rw [if_neg hmem, List.map_append, List.map_congr_left hold, List.map_singleton, hgroup,
          if_pos rfl, hnew, zero_add]
        exact insert_of_notMem hbases

/-- The canonical form has the bases with a positive total, and then those with a negative one. -/
theorem reduce_eq (ts : List Term) :
    reduce ts = ((bases ts).filter fun b => 0 < total b ts).map (group ts) ++
      ((bases ts).filter fun b => total b ts < 0).map (group ts) := by
  rw [reduce, collect_eq, List.filter_map, List.filter_map]
  rfl

/-- Neutral terms do not matter for the canonical form. -/
theorem reduce_filter_isNeutral (ts : List Term) :
    reduce (ts.filter fun t => !t.isNeutral) = reduce ts := by
  have hstep : (fun gs t => if (!t.isNeutral) = true then
      (if t.isNeutral then gs else insert t gs) else gs) =
      fun gs t => if t.isNeutral then gs else insert t gs := by
    funext gs t
    cases t.isNeutral <;> rfl
  have hcollect : collect (ts.filter fun t => !t.isNeutral) = collect ts := by
    rw [collect, List.foldl_filter, hstep, collect]
  rw [reduce, hcollect, reduce]

/-! ## Canonical forms -/

/-- The terms of the canonical form are the bases that are not neutral with their totals, where
these are not zero. -/
theorem mem_reduce_iff {t : Term} {ts : List Term} :
    t ∈ reduce ts ↔ t.base ≠ "1" ∧ t.exponent = total t.base ts ∧ t.exponent ≠ 0 := by
  obtain ⟨base, exponent⟩ := t
  have hgroup : ∀ b, group ts b = ⟨base, exponent⟩ ↔ b = base ∧ total base ts = exponent := by
    intro b
    rw [group, Term.mk.injEq]
    exact and_congr_right fun h => by rw [h]
  simp only [reduce_eq, List.mem_append, List.mem_map, List.mem_filter, decide_eq_true_eq, hgroup]
  constructor
  · rintro (⟨b, ⟨hb, hpos⟩, rfl, rfl⟩ | ⟨b, ⟨hb, hneg⟩, rfl, rfl⟩)
    · exact ⟨(mem_bases_iff.1 hb).1, rfl, hpos.ne'⟩
    · exact ⟨(mem_bases_iff.1 hb).1, rfl, hneg.ne⟩
  · rintro ⟨hne, rfl, hzero⟩
    -- a total that is not zero belongs to a base that occurs
    have hb : base ∈ bases ts := by
      refine mem_bases_iff.2 ⟨hne, ?_⟩
      by_contra h
      exact hzero (total_of_notMem h)
    rcases lt_or_gt_of_ne hzero with hneg | hpos
    · exact .inr ⟨base, ⟨hb, hneg⟩, rfl, rfl⟩
    · exact .inl ⟨base, ⟨hb, hpos⟩, rfl, rfl⟩

/-- Each base of the canonical form occurs in the list. -/
theorem exists_base_of_mem_reduce {t : Term} {ts : List Term} (h : t ∈ reduce ts) :
    ∃ u ∈ ts, u.base = t.base := by
  obtain ⟨-, htotal, hne⟩ := mem_reduce_iff.1 h
  by_contra hnone
  refine hne (htotal.trans (total_of_notMem fun hmem => hnone ?_))
  exact List.mem_map.1 hmem

/-- The bases of the canonical form, in its order. -/
theorem map_base_reduce (ts : List Term) :
    (reduce ts).map Term.base =
      ((bases ts).filter fun b => 0 < total b ts) ++ (bases ts).filter fun b => total b ts < 0 := by
  have hid : ∀ bs : List String, (bs.map (group ts)).map Term.base = bs := fun bs => by
    rw [List.map_map]
    exact List.map_id' bs
  rw [reduce_eq, List.map_append, hid, hid]

/-- The canonical form of any list is canonical. -/
theorem isCanonical_reduce (ts : List Term) : IsCanonical (reduce ts) where
  nodup := by
    rw [map_base_reduce, List.nodup_append]
    refine ⟨(nodup_bases ts).filter _, (nodup_bases ts).filter _, ?_⟩
    rintro b hb c hc rfl
    -- no total is both positive and negative
    simp only [List.mem_filter, decide_eq_true_eq] at hb hc
    exact lt_asymm hb.2 hc.2
  isNeutral_eq_false t ht := by
    simpa [Term.isNeutral] using (mem_reduce_iff.1 ht).1
  exponent_ne_zero t ht := (mem_reduce_iff.1 ht).2.2
  ordered := by
    rw [reduce, List.pairwise_append]
    simp only [List.pairwise_filter, List.mem_filter, decide_eq_true_eq]
    refine ⟨?_, ?_, fun _ _ _ hb _ => hb.2⟩
    · exact List.pairwise_of_forall fun _ _ hpos _ hneg => absurd hneg hpos.not_gt
    · exact List.pairwise_of_forall fun _ _ _ hneg _ => hneg

/-- The canonical form keeps the totals of the bases that are not neutral. -/
theorem total_reduce {base : String} (h : base ≠ "1") (ts : List Term) :
    total base (reduce ts) = total base ts := by
  by_cases hzero : total base ts = 0
  · -- a base whose total is zero is left out
    rw [hzero]
    refine total_of_notMem fun hmem => ?_
    obtain ⟨t, ht, rfl⟩ := List.mem_map.1 hmem
    obtain ⟨-, htotal, hne⟩ := mem_reduce_iff.1 ht
    exact hne (htotal.trans hzero)
  · have hmem : (⟨base, total base ts⟩ : Term) ∈ reduce ts := mem_reduce_iff.2 ⟨h, rfl, hzero⟩
    exact total_of_mem (isCanonical_reduce ts).nodup hmem

/-- A list of bases without repetition loses nothing. -/
theorem eraseDups_of_nodup {as : List String} (h : as.Nodup) : as.eraseDups = as := by
  induction as using List.reverseRecOn with
  | nil => rfl
  | append_singleton as a ih =>
    obtain ⟨has, -, ha⟩ := List.nodup_append.1 h
    have hnot : a ∉ as := fun hmem => ha a hmem a (by simp) rfl
    rw [eraseDups_append_singleton, if_neg hnot, ih has]

/-- Terms without a zero exponent and with the positive exponents in front are the positive ones and
then the negative ones. -/
theorem filter_append_filter {ts : List Term} (hzero : ∀ t ∈ ts, t.exponent ≠ 0)
    (hordered : ts.Pairwise fun a b => a.exponent < 0 → b.exponent < 0) :
    (ts.filter fun t => 0 < t.exponent) ++ (ts.filter fun t => t.exponent < 0) = ts := by
  induction ts with
  | nil => rfl
  | cons t ts ih =>
    obtain ⟨ht, hts⟩ := List.forall_mem_cons.1 hzero
    obtain ⟨hhead, htail⟩ := List.pairwise_cons.1 hordered
    rcases lt_or_gt_of_ne ht with hneg | hpos
    · -- a negative exponent in front means that all are negative
      have hall : ∀ u ∈ t :: ts, u.exponent < 0 :=
        List.forall_mem_cons.2 ⟨hneg, fun u hu => hhead u hu hneg⟩
      have hnone : (t :: ts).filter (fun u => 0 < u.exponent) = [] :=
        List.filter_eq_nil_iff.2 fun u hu => by simpa using (hall u hu).le
      rw [hnone, List.nil_append]
      exact List.filter_eq_self.2 fun u hu => by simpa using hall u hu
    · simp only [List.filter_cons, hpos, decide_true, if_true, hpos.not_gt, decide_false,
        Bool.false_eq_true, if_false, List.cons_append, ih hts htail]

/-- A canonical list is its own canonical form. -/
theorem reduce_of_isCanonical {ts : List Term} (h : IsCanonical ts) : reduce ts = ts := by
  have hfilter : ts.filter (fun t => !t.isNeutral) = ts :=
    List.filter_eq_self.2 fun t ht => by simp [h.isNeutral_eq_false t ht]
  -- each base occurs once, so its group is its term
  have hcollect : collect ts = ts := by
    rw [collect_eq, bases, hfilter, eraseDups_of_nodup h.nodup, List.map_map]
    calc ts.map (group ts ∘ Term.base) = ts.map id :=
          List.map_congr_left fun t ht => by
            simp [group, total_of_mem h.nodup ht]
      _ = ts := List.map_id ts
  rw [reduce, hcollect]
  exact filter_append_filter h.exponent_ne_zero h.ordered

end UnitAlgebra.Terms
