import UnitAlgebra.Proofs.Canonical

/-!
# The canonical form with an index

One pass finds the canonical form if it keeps the groups in an array and the place of each base in
an index. `Groups.Agrees` is what the pass keeps: the index has the place of each group under its
base, and nothing else. Then the group of a base is found where a search through the list finds it
(`insert_eq_modify`), so each step is one of `collect` (`Agrees.toList_add`), and the pass ends with
the canonical form (`indexedReduce_eq`).
-/

namespace UnitAlgebra.Terms

/-- Groups of terms, with an index of their bases. -/
structure Groups where
  /-- The groups in the order in which their bases first occur. -/
  terms : Array Term
  /-- The place of each base. -/
  index : Std.HashMap String Nat

namespace Groups

/-- No groups. -/
def empty : Groups :=
  ⟨#[], ∅⟩

/-- Adds a term to the group of its base, or as a new last group. A neutral term is left out. -/
def add (gs : Groups) (t : Term) : Groups :=
  if t.isNeutral then gs
  else
    match gs.index[t.base]? with
    | some k =>
      { gs with terms := gs.terms.modify k fun g => g.withExponent (g.exponent + t.exponent) }
    | none => ⟨gs.terms.push t, gs.index.insert t.base gs.terms.size⟩

/-- The index has the place of each group under its base, and nothing else. -/
def Agrees (gs : Groups) : Prop :=
  ∀ (base : String) (k : Nat), gs.index[base]? = some k ↔
    (gs.terms.toList.map Term.base)[k]? = some base

end Groups

/-- The canonical form of a list of terms, by one pass with an index. -/
def indexedReduce (ts : List Term) : List Term :=
  let groups := (ts.foldl Groups.add .empty).terms.toList
  let (positive, negative) :=
    (groups.filter fun t => t.exponent ≠ 0).partition fun t => 0 < t.exponent
  positive ++ negative

/-- The group of a base is found at the first place of the base. -/
theorem insert_eq_modify {t : Term} {gs : List Term} {k : Nat}
    (hk : (gs.map Term.base)[k]? = some t.base)
    (hfirst : ∀ j < k, (gs.map Term.base)[j]? ≠ some t.base) :
    insert t gs = gs.modify k fun g => g.withExponent (g.exponent + t.exponent) := by
  induction gs generalizing k with
  | nil => simp at hk
  | cons g gs ih =>
    cases k with
    | zero =>
      have hbase : g.base = t.base := by simpa using hk
      rw [insert, if_pos hbase, List.modify_zero_cons]
    | succ k =>
      have hbase : g.base ≠ t.base := by simpa using hfirst 0 (Nat.succ_pos k)
      have hrest : ∀ j < k, (gs.map Term.base)[j]? ≠ some t.base := fun j hj => by
        simpa using hfirst (j + 1) (Nat.succ_lt_succ hj)
      rw [insert, if_neg hbase, List.modify_succ_cons, ih (by simpa using hk) hrest]

namespace Groups

variable {gs : Groups}

/-- Nothing is found among no groups. -/
theorem agrees_empty : Agrees empty := by
  intro base k
  simp [empty]

/-- Adding a term to a group leaves the bases as they are. -/
theorem map_base_modify (ts : List Term) (k : Nat) (t : Term) :
    (ts.modify k fun g => g.withExponent (g.exponent + t.exponent)).map Term.base =
      ts.map Term.base := by
  induction ts generalizing k with
  | nil => simp
  | cons u ts ih =>
    cases k with
    | zero => rfl
    | succ k => rw [List.modify_succ_cons, List.map_cons, ih, List.map_cons]

/-- A base without a place has no group. -/
theorem Agrees.notMem (h : Agrees gs) {base : String} (hindex : gs.index[base]? = none) :
    base ∉ gs.terms.toList.map Term.base := by
  intro hmem
  obtain ⟨k, hk⟩ := List.mem_iff_getElem?.1 hmem
  rw [(h base k).2 hk] at hindex
  cases hindex

/-- The places in a list with one element more. -/
theorem getElem?_concat_eq_some_iff {as : List String} {a b : String} {k : Nat} :
    (as ++ [a])[k]? = some b ↔ as[k]? = some b ∨ k = as.length ∧ a = b := by
  rcases Nat.lt_trichotomy k as.length with hk | rfl | hk
  · rw [List.getElem?_append_left hk]
    simp [hk.ne]
  · simp
  · have hnone : as[k]? = none := List.getElem?_eq_none hk.le
    have hnone' : (as ++ [a])[k]? = none := List.getElem?_eq_none (by simp; omega)
    simp [hnone, hnone', hk.ne']

/-- A step keeps the index. -/
theorem Agrees.add (h : Agrees gs) (t : Term) : Agrees (gs.add t) := by
  unfold Groups.add
  split
  · exact h
  · cases hindex : gs.index[t.base]? with
    | some k =>
      intro base j
      dsimp only
      rw [Array.toList_modify, map_base_modify]
      exact h base j
    | none =>
      intro base j
      have hnew := h.notMem hindex
      dsimp only
      rw [Std.HashMap.getElem?_insert, Array.toList_push, List.map_append, List.map_singleton,
        getElem?_concat_eq_some_iff, List.length_map, Array.length_toList]
      by_cases hbase : t.base = base
      · subst hbase
        have hnone : (gs.terms.toList.map Term.base)[j]? ≠ some t.base := fun hj =>
          hnew (List.mem_of_getElem? hj)
        rw [if_pos (beq_self_eq_true _), or_iff_right hnone, Option.some.injEq, eq_comm]
        exact (and_iff_left rfl).symm
      · rw [if_neg (by simpa using hbase), h base j, or_iff_left fun hlast => hbase hlast.2]

/-- A step adds the term as a search through the groups does. -/
theorem Agrees.toList_add (h : Agrees gs) (t : Term) :
    (gs.add t).terms.toList =
      if t.isNeutral then gs.terms.toList else insert t gs.terms.toList := by
  unfold Groups.add
  split
  · rfl
  · cases hindex : gs.index[t.base]? with
    | some k =>
      dsimp only
      have hk := (h t.base k).1 hindex
      -- the index gives one place, so the base has no other
      have hfirst : ∀ j < k, (gs.terms.toList.map Term.base)[j]? ≠ some t.base := by
        intro j hj hbase
        have hplace := (h t.base j).2 hbase
        rw [hindex, Option.some.injEq] at hplace
        omega
      rw [Array.toList_modify, insert_eq_modify hk hfirst]
    | none =>
      dsimp only
      rw [Array.toList_push, insert_of_notMem (h.notMem hindex)]

/-- A run adds the terms as a search through the groups does. -/
theorem Agrees.foldl_add (h : Agrees gs) (ts : List Term) :
    (ts.foldl Groups.add gs).terms.toList =
      ts.foldl (fun us t => if t.isNeutral then us else insert t us) gs.terms.toList := by
  induction ts generalizing gs with
  | nil => rfl
  | cons t ts ih => rw [List.foldl_cons, List.foldl_cons, ih (h.add t), h.toList_add t]

end Groups

/-- One pass with an index finds the canonical form. -/
theorem indexedReduce_eq (ts : List Term) : indexedReduce ts = reduce ts := by
  have hgroups : (ts.foldl Groups.add .empty).terms.toList = collect ts :=
    Groups.agrees_empty.foldl_add ts
  have hpositive : ∀ t : Term, (decide (0 < t.exponent) && decide (t.exponent ≠ 0)) =
      decide (0 < t.exponent) := fun t => by
    rw [← Bool.decide_and, decide_eq_decide]
    exact and_iff_left_of_imp fun h => h.ne'
  have hnegative : ∀ t : Term, (!decide (0 < t.exponent) && decide (t.exponent ≠ 0)) =
      decide (t.exponent < 0) := fun t => by
    rw [← decide_not, ← Bool.decide_and, decide_eq_decide, not_lt, lt_iff_le_and_ne]
  simp only [indexedReduce, hgroups, List.partition_eq_filter_filter, List.filter_filter,
    Function.comp_def, hpositive, hnegative, reduce]

end UnitAlgebra.Terms
