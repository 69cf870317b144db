import UnitAlgebra.Proofs.Grammar

/-!
# Where a list of symbols leaves the grammar

A list of symbols is viable if it goes on to a product. Where an exponent stands behind each caret,
as in the symbols of every text, the parser stops at the first symbol with which a list is not
viable any more, or at the last symbol of a list that is viable but no product
(`faultAt_of_parse_eq_error`). So everything in front of the symbol that is shown is in order.

`IsContinuation` and `IsFactors` are what the two functions of the parser accept, each in terms of
the other (`isContinuation_cons_iff`, `isFactors_base_iff`). `Leaves` says of any language where a
list leaves it. The proof follows the parser: what it takes off the list has to be in front of the
rest in each prefix of the list as well (`Leaves.append`).
-/

namespace UnitAlgebra.Grammar

/-! ## Languages of symbols -/

/-- The symbols of a product. -/
def IsProduct (symbols : List Symbol) : Prop :=
  ∃ ts, Product symbols ts

/-- The symbols after a factor. -/
def IsContinuation (symbols : List Symbol) : Prop :=
  ∃ ts, Continuation symbols ts

/-- The symbols from a factor on. -/
def IsFactors (symbols : List Symbol) : Prop :=
  ∃ f t rest, symbols = f ++ rest ∧ Factor f t ∧ IsContinuation rest

/-- A list of symbols goes on to one of a language. -/
def Opens (language : List Symbol → Prop) (symbols : List Symbol) : Prop :=
  ∃ more, language (symbols ++ more)

/-- A list of symbols goes on to a product. -/
def Viable (symbols : List Symbol) : Prop :=
  Opens IsProduct symbols

/-- The index of the first symbol with which a list is not viable, or of its last symbol if there is
no such one. -/
inductive FaultAt (symbols : List Symbol) : Nat → Prop
  /-- The list leaves the grammar. -/
  | leaves {i : Nat} : i < symbols.length → ¬Viable (symbols.take (i + 1)) →
    (∀ j < i, Viable (symbols.take (j + 1))) → FaultAt symbols i
  /-- The list ends too early. -/
  | ends {i : Nat} : i + 1 = symbols.length → (∀ j ≤ i, Viable (symbols.take (j + 1))) →
    FaultAt symbols i

/-- Behind each caret stands an exponent. -/
def CaretsRaise (symbols : List Symbol) : Prop :=
  ∀ front back, symbols = front ++ .caret :: back → ∃ value more, back = .exponent value :: more

/-- Behind each caret of the last symbols of a list stands an exponent, if it does so in the list.
-/
theorem CaretsRaise.of_append {front symbols : List Symbol} (h : CaretsRaise (front ++ symbols)) :
    CaretsRaise symbols := by
  intro init back hsymbols
  refine h (front ++ init) back ?_
  rw [hsymbols, List.append_assoc]

/-- There is one such index at most. -/
theorem FaultAt.unique {symbols : List Symbol} {i k : Nat} (hi : FaultAt symbols i)
    (hk : FaultAt symbols k) : i = k := by
  cases hi with
  | leaves hi hleaves hbefore =>
    cases hk with
    | leaves hk hleaves' hbefore' =>
      rcases Nat.lt_trichotomy i k with h | h | h
      · exact absurd (hbefore' i h) hleaves
      · exact h
      · exact absurd (hbefore k h) hleaves'
    | ends hk hall => exact absurd (hall i (by omega)) hleaves
  | ends hi hall =>
    cases hk with
    | leaves hk hleaves _ => exact absurd (hall k (by omega)) hleaves
    | ends hk _ => omega

/-- The index is that of a symbol. -/
theorem FaultAt.lt_length {symbols : List Symbol} {i : Nat} (h : FaultAt symbols i) :
    i < symbols.length := by
  cases h with
  | leaves hi _ _ => exact hi
  | ends hi _ => omega

/-- The first symbols of a list that goes on to a language go on to it. -/
theorem Opens.take {language : List Symbol → Prop} {symbols : List Symbol}
    (h : Opens language symbols) (n : Nat) : Opens language (symbols.take n) := by
  obtain ⟨more, hmore⟩ := h
  exact ⟨symbols.drop n ++ more, by rwa [← List.append_assoc, List.take_append_drop]⟩

/-- Nothing may follow a factor. -/
theorem isContinuation_nil : IsContinuation [] :=
  ⟨[], .nil⟩

/-- After a factor there is a star or a slash, and what goes on from a factor. -/
theorem isContinuation_cons_iff {s : Symbol} {rest : List Symbol} :
    IsContinuation (s :: rest) ↔ (s = .star ∨ s = .slash) ∧ IsFactors rest := by
  constructor
  · rintro ⟨ts, h⟩
    cases h with
    | star hf hrest => exact ⟨.inl rfl, _, _, _, rfl, hf, _, hrest⟩
    | slash hf hrest => exact ⟨.inr rfl, _, _, _, rfl, hf, _, hrest⟩
  · rintro ⟨rfl | rfl, f, t, rest, rfl, hf, ts, hrest⟩
    · exact ⟨_, .star hf hrest⟩
    · exact ⟨_, .slash hf hrest⟩

/-- A factor starts with a base. -/
theorem exists_base_of_isFactors {symbols : List Symbol} (h : IsFactors symbols) :
    ∃ name rest, symbols = .base name :: rest := by
  obtain ⟨f, t, rest, rfl, hf, -⟩ := h
  cases hf with
  | bare name => exact ⟨name, rest, rfl⟩
  | raised name value => exact ⟨name, .caret :: .exponent value :: rest, rfl⟩

/-- A base may have an exponent. -/
theorem isFactors_base_iff {name : String} {symbols : List Symbol} :
    IsFactors (.base name :: symbols) ↔ IsContinuation symbols ∨
      ∃ value rest, symbols = .caret :: .exponent value :: rest ∧ IsContinuation rest := by
  constructor
  · rintro ⟨f, t, rest, hsymbols, hf, hrest⟩
    cases hf with
    | bare name =>
      obtain ⟨-, rfl⟩ := List.cons.inj hsymbols
      exact .inl hrest
    | raised name value =>
      obtain ⟨-, rfl⟩ := List.cons.inj hsymbols
      exact .inr ⟨value, rest, rfl, hrest⟩
  · rintro (hrest | ⟨value, rest, rfl, hrest⟩)
    · exact ⟨_, _, symbols, rfl, .bare name, hrest⟩
    · exact ⟨_, _, rest, rfl, .raised name value, hrest⟩

/-- A product is what goes on from a factor, with a slash in front of it or without one. -/
theorem isProduct_iff {symbols : List Symbol} :
    IsProduct symbols ↔ IsFactors symbols ∨ ∃ rest, symbols = .slash :: rest ∧ IsFactors rest := by
  constructor
  · rintro ⟨ts, h⟩
    cases h with
    | plain hf hrest => exact .inl ⟨_, _, _, rfl, hf, _, hrest⟩
    | slash hf hrest => exact .inr ⟨_, rfl, _, _, _, rfl, hf, _, hrest⟩
  · rintro (⟨f, t, rest, rfl, hf, ts, hrest⟩ | ⟨_, rfl, f, t, rest, rfl, hf, ts, hrest⟩)
    · exact ⟨_, .plain hf hrest⟩
    · exact ⟨_, .slash hf hrest⟩

/-- A slash stands in front of the first factor only. -/
theorem isProduct_slash_iff {symbols : List Symbol} :
    IsProduct (.slash :: symbols) ↔ IsFactors symbols := by
  rw [isProduct_iff]
  constructor
  · rintro (h | ⟨rest, hrest, h⟩)
    · obtain ⟨name, rest, hbase⟩ := exists_base_of_isFactors h
      cases hbase
    · cases hrest
      exact h
  · exact fun h => .inr ⟨symbols, rfl, h⟩

/-- A base is a factor by itself. -/
theorem isFactors_base (name : String) : IsFactors [.base name] :=
  isFactors_base_iff.2 (.inl isContinuation_nil)

/-- A factor may be missing at the end. -/
theorem opens_factors_nil : Opens IsFactors [] :=
  ⟨[.base ""], isFactors_base ""⟩

/-- Each continuation goes on. -/
theorem opens_continuation_nil : Opens IsContinuation [] :=
  ⟨[], isContinuation_nil⟩

/-! ## Leaving a language -/

/-- A list whose first symbol has index `offset` leaves a language at an index, or ends too early
there. -/
inductive Leaves (language : List Symbol → Prop) (offset : Nat) (symbols : List Symbol)
    (index : Nat) : Prop
  /-- The symbols in front of `s` go on to the language, but not together with it. -/
  | within {front back : List Symbol} {s : Symbol} : symbols = front ++ s :: back →
    Opens language front → ¬Opens language (front ++ [s]) → index = offset + front.length →
      Leaves language offset symbols index
  /-- All symbols go on to the language. -/
  | atEnd : Opens language symbols → index + 1 = offset + symbols.length →
    Leaves language offset symbols index

/-- A list leaves a language where its rest leaves the language of what may follow. -/
theorem Leaves.append {language following : List Symbol → Prop} {offset index : Nat}
    {front symbols : List Symbol} (h : Leaves following (offset + front.length) symbols index)
    (hopens : ∀ part more, symbols = part ++ more →
      (Opens language (front ++ part) ↔ Opens following part)) :
    Leaves language offset (front ++ symbols) index := by
  cases h with
  | @within init back s hsymbols hinit hs hindex =>
    have hpart : symbols = (init ++ [s]) ++ back := by simp [hsymbols]
    have hsplit : front ++ symbols = (front ++ init) ++ s :: back := by simp [hsymbols]
    refine .within hsplit ?_ ?_ ?_
    · exact (hopens init (s :: back) hsymbols).2 hinit
    · rw [List.append_assoc, hopens _ _ hpart]
      exact hs
    · rw [List.length_append]
      omega
  | atEnd hall hindex =>
    refine .atEnd ?_ ?_
    · exact (hopens symbols [] (List.append_nil _).symm).2 hall
    · rw [List.length_append]
      omega

/-! ## Where the parser stops -/

/-- A caret behind a base belongs to it. -/
theorem opens_factors_base_iff {name : String} {part : List Symbol}
    (hpart : ∀ more, part ≠ .caret :: more) :
    Opens IsFactors (.base name :: part) ↔ Opens IsContinuation part := by
  cases part with
  | nil => exact iff_of_true ⟨[], isFactors_base name⟩ opens_continuation_nil
  | cons s part =>
    refine exists_congr fun more => ?_
    rw [List.cons_append, isFactors_base_iff, or_iff_left]
    rintro ⟨value, rest, hrest, -⟩
    obtain ⟨rfl, -⟩ := List.cons.inj hrest
    exact hpart part rfl

/-- What stands behind an exponent is a continuation. -/
theorem opens_factors_exponent_iff {name : String} {value : Rat} {part : List Symbol} :
    Opens IsFactors (.base name :: .caret :: .exponent value :: part) ↔
      Opens IsContinuation part := by
  refine exists_congr fun more => ?_
  simp only [List.cons_append, isFactors_base_iff]
  constructor
  · rintro (hcaret | ⟨_, rest, hrest, h⟩)
    · rcases (isContinuation_cons_iff.1 hcaret).1 with h | h <;> cases h
    · cases hrest
      exact h
  · exact fun h => .inr ⟨value, _, rfl, h⟩

/-- A list whose first symbol starts no factor leaves the factors with it. -/
theorem leaves_factors_of_ne {offset : Nat} {s : Symbol} (hs : ∀ name, s ≠ .base name)
    (rest : List Symbol) : Leaves IsFactors offset (s :: rest) offset := by
  have hfront : s :: rest = [] ++ s :: rest := rfl
  refine .within hfront opens_factors_nil ?_ rfl
  rintro ⟨more, h⟩
  obtain ⟨name, back, hback⟩ := exists_base_of_isFactors h
  exact hs name (List.cons.inj hback).1

/-- A list whose first symbol is no operator leaves the continuations with it. -/
theorem leaves_continuation_of_ne {offset : Nat} {s : Symbol} (hstar : s ≠ .star)
    (hslash : s ≠ .slash) (rest : List Symbol) :
    Leaves IsContinuation offset (s :: rest) offset := by
  have hfront : s :: rest = [] ++ s :: rest := rfl
  refine .within hfront opens_continuation_nil ?_ rfl
  rintro ⟨more, h⟩
  rcases (isContinuation_cons_iff.1 h).1 with rfl | rfl
  · exact hstar rfl
  · exact hslash rfl

/-- Where `factors` stops, if `continuation` stops where its list leaves the continuations. -/
theorem leaves_of_factors_eq_error {divides : Bool} {index : Nat} {symbols : List Symbol}
    {step : Misstep} (h : factors divides index symbols = .error step)
    (hcarets : CaretsRaise symbols) (hpos : 0 < index + symbols.length)
    (hcontinuation : ∀ k rest, rest.length < symbols.length → CaretsRaise rest →
      continuation k rest = .error step → Leaves IsContinuation k rest step.index) :
    Leaves IsFactors index symbols step.index := by
  unfold factors at h
  split at h
  · next name value rest =>
    -- a base with its exponent
    have hmore : CaretsRaise rest :=
      @CaretsRaise.of_append [.base name, .caret, .exponent value] rest hcarets
    have hrest := hcontinuation _ rest (by simp; omega) hmore (map_eq_error_iff.1 h)
    have happend :
        Leaves IsFactors index ([.base name, .caret, .exponent value] ++ rest) step.index :=
      hrest.append fun part _ _ => opens_factors_exponent_iff
    exact happend
  · next name rest hraised =>
    -- no caret is without its exponent
    obtain ⟨value, more, hmore⟩ := hcarets [.base name] rest rfl
    exact (hraised value more hmore).elim
  · next name rest _ hcaret =>
    have hmore : CaretsRaise rest := @CaretsRaise.of_append [.base name] rest hcarets
    have hrest := hcontinuation _ rest (by simp) hmore (map_eq_error_iff.1 h)
    have happend : Leaves IsFactors index ([.base name] ++ rest) step.index := by
      refine hrest.append fun part more hpart => opens_factors_base_iff fun back hback => ?_
      obtain rfl : part = .caret :: back := hback
      exact hcaret (back ++ more) hpart
    exact happend
  · cases h
    exact leaves_factors_of_ne (by simp) _
  · cases h
    exact leaves_factors_of_ne (by simp) _
  · cases h
    exact leaves_factors_of_ne (by simp) _
  · cases h
    exact leaves_factors_of_ne (by simp) _
  · -- a factor is missing at the end
    cases h
    refine .atEnd opens_factors_nil ?_
    rw [List.length_nil] at hpos ⊢
    exact Nat.sub_add_cancel hpos

/-- `continuation` stops where its list leaves the continuations. -/
theorem leaves_of_continuation_eq_error {index : Nat} {symbols : List Symbol} {step : Misstep}
    (h : continuation index symbols = .error step) (hcarets : CaretsRaise symbols) :
    Leaves IsContinuation index symbols step.index := by
  -- on the number of symbols, since a factor takes off more than one at a time
  induction hn : symbols.length using Nat.strongRecOn generalizing index symbols with
  | ind n ih =>
    have hfactors : ∀ {divides : Bool} {s : Symbol} {rest : List Symbol}, symbols = s :: rest →
        (s = .star ∨ s = .slash) → factors divides (index + 1) rest = .error step →
          Leaves IsContinuation index symbols step.index := by
      rintro divides s rest rfl hs hrest
      have hmore : CaretsRaise rest := @CaretsRaise.of_append [s] rest hcarets
      have hleaves : Leaves IsFactors (index + 1) rest step.index :=
        leaves_of_factors_eq_error hrest hmore (by omega) fun k back hlength hback hstep => by
          refine ih back.length ?_ hstep hback rfl
          rw [← hn, List.length_cons]
          omega
      have happend : Leaves IsContinuation index ([s] ++ rest) step.index :=
        hleaves.append fun part _ _ => exists_congr fun more =>
          isContinuation_cons_iff.trans (and_iff_right hs)
      exact happend
    unfold continuation at h
    split at h
    · cases h
    · exact hfactors rfl (.inl rfl) h
    · exact hfactors rfl (.inr rfl) h
    all_goals
      cases h
      exact leaves_continuation_of_ne (by simp) (by simp) _

/-- `factors` stops where its list leaves the factors. -/
theorem Leaves.of_factors {divides : Bool} {index : Nat} {symbols : List Symbol} {step : Misstep}
    (h : factors divides index symbols = .error step) (hcarets : CaretsRaise symbols)
    (hpos : 0 < index + symbols.length) : Leaves IsFactors index symbols step.index :=
  leaves_of_factors_eq_error h hcarets hpos fun _ _ _ hmore hstep =>
    leaves_of_continuation_eq_error hstep hmore

/-- The parser stops where its list leaves the products. -/
theorem leaves_of_parse_eq_error {symbols : List Symbol} {step : Misstep}
    (h : parse symbols = .error step) (hcarets : CaretsRaise symbols) (hne : symbols ≠ []) :
    Leaves IsProduct 0 symbols step.index := by
  unfold parse at h
  split at h
  · next rest =>
    have hmore : CaretsRaise rest := @CaretsRaise.of_append [.slash] rest hcarets
    have hleaves := Leaves.of_factors h hmore (by omega)
    have happend : Leaves IsProduct 0 ([.slash] ++ rest) step.index := by
      exact hleaves.append fun part _ _ => exists_congr fun more => isProduct_slash_iff
    exact happend
  · next hslash =>
    have hpos := List.length_pos_iff.2 hne
    have hleaves : Leaves IsFactors (0 + 0) symbols step.index :=
      Leaves.of_factors h hcarets (by omega)
    have happend : Leaves IsProduct 0 ([] ++ symbols) step.index := by
      refine hleaves.append fun part more hpart => ?_
      -- the empty part goes on to both, and any other one does not start with a slash
      cases part with
      | nil =>
        have hbase : IsProduct [.base ""] := isProduct_iff.2 (.inl (isFactors_base ""))
        exact iff_of_true ⟨_, hbase⟩ opens_factors_nil
      | cons s part =>
        refine exists_congr fun back => isProduct_iff.trans (or_iff_left ?_)
        rintro ⟨rest, hrest, -⟩
        obtain ⟨rfl, -⟩ := List.cons.inj hrest
        exact hslash _ hpart
    exact happend

/-- Where a list leaves the products is the first symbol with which it is not viable. -/
theorem Leaves.faultAt {symbols : List Symbol} {index : Nat}
    (h : Leaves IsProduct 0 symbols index) : FaultAt symbols index := by
  cases h with
  | @within front back s hsymbols hfront hs hindex =>
    rw [Nat.zero_add] at hindex
    subst hindex hsymbols
    refine .leaves (by simp) ?_ fun j hj => ?_
    · rwa [List.take_length_add_append, List.take_succ_cons, List.take_zero]
    · rw [List.take_append_of_le_length hj]
      exact hfront.take (j + 1)
  | atEnd hall hindex =>
    rw [Nat.zero_add] at hindex
    exact .ends hindex fun j _ => hall.take (j + 1)

/-- Where an exponent stands behind each caret, the parser stops at the first symbol with which a
list is not viable, or at its last symbol if the list only ends too early. -/
theorem faultAt_of_parse_eq_error {symbols : List Symbol} {step : Misstep}
    (h : parse symbols = .error step) (hcarets : CaretsRaise symbols) (hne : symbols ≠ []) :
    FaultAt symbols step.index :=
  (leaves_of_parse_eq_error h hcarets hne).faultAt

end UnitAlgebra.Grammar
