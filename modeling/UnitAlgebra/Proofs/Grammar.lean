import UnitAlgebra.Grammar

/-!
# The grammar as a relation

A product is `[/] F ((* | /) F)*`, where a factor `F` is a base with an exponent or without one. The
relations `Factor`, `Continuation` and `Product` say this of lists of symbols, and give each list
its terms: the operator right in front of a factor decides whether its term is turned over, and
nothing else does. `parse_eq_ok_iff` says that the parser accepts exactly the products, and returns
the terms that the relation gives them.

The proof goes along the text. `exists_factor_of_factors_eq_ok` takes one factor off a list that
`factors` accepts, `factors_append` puts one in front, and `continuation_eq_ok_iff` iterates both.
-/

namespace UnitAlgebra.Grammar

/-- The symbols of a factor, with its term: a base has the exponent one unless a caret and an
exponent follow it. -/
inductive Factor : List Symbol → Term → Prop
  /-- A base alone. -/
  | bare (name : String) : Factor [.base name] ⟨name, 1⟩
  /-- A base raised to an exponent. -/
  | raised (name : String) (value : Rat) :
    Factor [.base name, .caret, .exponent value] ⟨name, value⟩

/-- The symbols after a factor, with their terms: any number of factors, each with the operator in
front of it. The slash turns the term of its factor over, and the star does not. -/
inductive Continuation : List Symbol → List Term → Prop
  /-- The text ends. -/
  | nil : Continuation [] []
  /-- A factor multiplies. -/
  | star {f rest : List Symbol} {t : Term} {ts : List Term} :
    Factor f t → Continuation rest ts → Continuation (.star :: (f ++ rest)) (t :: ts)
  /-- A factor divides. -/
  | slash {f rest : List Symbol} {t : Term} {ts : List Term} :
    Factor f t → Continuation rest ts → Continuation (.slash :: (f ++ rest)) (t.inverse :: ts)

/-- The symbols of a product, with the terms of its factors in the order of the text. -/
inductive Product : List Symbol → List Term → Prop
  /-- A product starts with a factor. -/
  | plain {f rest : List Symbol} {t : Term} {ts : List Term} :
    Factor f t → Continuation rest ts → Product (f ++ rest) (t :: ts)
  /-- A product starts with a slash, which turns the first factor over. -/
  | slash {f rest : List Symbol} {t : Term} {ts : List Term} :
    Factor f t → Continuation rest ts → Product (.slash :: (f ++ rest)) (t.inverse :: ts)

/-- A term, turned over after a slash. -/
def turned (divides : Bool) (t : Term) : Term :=
  if divides then t.inverse else t

/-- The term of a factor is the term of its base and exponent, turned over after a slash. -/
theorem factor_eq_turned (divides : Bool) (name : String) (value : Rat) :
    factor divides name value = turned divides ⟨name, value⟩ := by
  cases divides <;> rfl

/-- What `factors` accepts starts with a factor, and goes on with what `continuation` accepts. -/
theorem exists_factor_of_factors_eq_ok {divides : Bool} {index : Nat} {symbols : List Symbol}
    {ts : List Term} (h : factors divides index symbols = .ok ts) :
    ∃ f t rest more, symbols = f ++ rest ∧ Factor f t ∧
      continuation (index + f.length) rest = .ok more ∧ ts = turned divides t :: more := by
  unfold factors at h
  split at h
  · next name value rest =>
    obtain ⟨more, hmore, rfl⟩ := map_eq_ok_iff.1 h
    exact ⟨_, _, rest, more, rfl, .raised name value, hmore, by rw [factor_eq_turned]⟩
  · cases h
  · next name rest _ _ =>
    obtain ⟨more, hmore, rfl⟩ := map_eq_ok_iff.1 h
    exact ⟨_, _, rest, more, rfl, .bare name, hmore, by rw [factor_eq_turned]⟩
  all_goals cases h

/-- A factor in front of symbols that do not start with a caret is taken off as a whole. -/
theorem factors_append {f rest : List Symbol} {t : Term} (hf : Factor f t)
    (hrest : ∀ more, rest ≠ .caret :: more) (divides : Bool) (index : Nat) :
    factors divides index (f ++ rest) =
      (continuation (index + f.length) rest).map (turned divides t :: ·) := by
  cases hf with
  | bare name =>
    -- without a caret behind it, a base is a factor by itself
    rw [← factor_eq_turned]
    cases rest with
    | nil => rfl
    | cons s more =>
      cases s with
      | caret => exact absurd rfl (hrest more)
      | base _ => rfl
      | exponent _ => rfl
      | star => rfl
      | slash => rfl
  | raised name value =>
    rw [← factor_eq_turned]
    rfl

/-- The symbols after a factor do not start with a caret. -/
theorem Continuation.ne_caret {symbols : List Symbol} {ts : List Term}
    (h : Continuation symbols ts) (more : List Symbol) : symbols ≠ .caret :: more := by
  cases h <;> simp

/-- What `continuation` accepts is a continuation. -/
theorem continuation_of_eq_ok {index : Nat} {symbols : List Symbol} {ts : List Term}
    (h : continuation index symbols = .ok ts) : Continuation symbols ts := by
  have shorter : ∀ (s : Symbol) (f rest : List Symbol),
      rest.length < (s :: (f ++ rest)).length := by
    intro s f rest
    rw [List.length_cons, List.length_append]
    omega
  -- on the number of symbols, since a factor takes off more than one at a time
  induction hn : symbols.length using Nat.strongRecOn generalizing index symbols ts with
  | ind n ih =>
    unfold continuation at h
    split at h
    · cases h
      exact .nil
    · obtain ⟨f, t, rest, more, rfl, hf, hmore, rfl⟩ := exists_factor_of_factors_eq_ok h
      exact .star hf (ih _ (hn ▸ shorter _ f rest) hmore rfl)
    · obtain ⟨f, t, rest, more, rfl, hf, hmore, rfl⟩ := exists_factor_of_factors_eq_ok h
      exact .slash hf (ih _ (hn ▸ shorter _ f rest) hmore rfl)
    all_goals cases h

/-- The symbols after a factor are accepted at any index exactly when they are a continuation. -/
theorem continuation_eq_ok_iff {index : Nat} {symbols : List Symbol} {ts : List Term} :
    continuation index symbols = .ok ts ↔ Continuation symbols ts := by
  refine ⟨continuation_of_eq_ok, fun h => ?_⟩
  induction h generalizing index with
  | nil => rfl
  | star hf hrest ih =>
    rw [continuation, factors_append hf hrest.ne_caret, ih]
    rfl
  | slash hf hrest ih =>
    rw [continuation, factors_append hf hrest.ne_caret, ih]
    rfl

/-- The symbols from a factor on are accepted exactly when they are a factor and a continuation. -/
theorem factors_eq_ok_iff {divides : Bool} {index : Nat} {symbols : List Symbol}
    {ts : List Term} :
    factors divides index symbols = .ok ts ↔
      ∃ f t rest more, symbols = f ++ rest ∧ Factor f t ∧ Continuation rest more ∧
        ts = turned divides t :: more := by
  constructor
  · intro h
    obtain ⟨f, t, rest, more, hs, hf, hmore, hts⟩ := exists_factor_of_factors_eq_ok h
    exact ⟨f, t, rest, more, hs, hf, continuation_of_eq_ok hmore, hts⟩
  · rintro ⟨f, t, rest, more, rfl, hf, hmore, rfl⟩
    rw [factors_append hf hmore.ne_caret, continuation_eq_ok_iff.2 hmore]
    rfl

/-- The parser accepts exactly the products, with the terms of their factors. -/
theorem parse_eq_ok_iff {symbols : List Symbol} {ts : List Term} :
    parse symbols = .ok ts ↔ Product symbols ts := by
  constructor
  · intro h
    unfold parse at h
    split at h
    · obtain ⟨f, t, rest, more, rfl, hf, hmore, rfl⟩ := factors_eq_ok_iff.1 h
      exact .slash hf hmore
    · obtain ⟨f, t, rest, more, rfl, hf, hmore, rfl⟩ := factors_eq_ok_iff.1 h
      exact .plain hf hmore
  · intro h
    cases h with
    | @plain f rest t more hf hmore =>
      have hok : factors false 0 (f ++ rest) = .ok (t :: more) :=
        factors_eq_ok_iff.2 ⟨f, t, rest, more, rfl, hf, hmore, rfl⟩
      -- a factor starts with its base, and so with no slash
      cases hf with
      | bare name => exact hok
      | raised name value => exact hok
    | slash hf hmore => exact factors_eq_ok_iff.2 ⟨_, _, _, _, rfl, hf, hmore, rfl⟩

/-- The base of the term of a factor is one of its symbols. -/
theorem Factor.base_mem {f : List Symbol} {t : Term} (h : Factor f t) : .base t.base ∈ f := by
  cases h <;> simp

/-- The bases of the terms of a continuation are among its symbols. -/
theorem Continuation.base_mem {symbols : List Symbol} {ts : List Term}
    (h : Continuation symbols ts) : ∀ t ∈ ts, .base t.base ∈ symbols := by
  induction h with
  | nil => simp
  | star hf _ ih =>
    rw [List.forall_mem_cons]
    exact ⟨List.mem_cons_of_mem _ (List.mem_append_left _ hf.base_mem),
      fun t ht => List.mem_cons_of_mem _ (List.mem_append_right _ (ih t ht))⟩
  | slash hf _ ih =>
    rw [List.forall_mem_cons]
    exact ⟨List.mem_cons_of_mem _ (List.mem_append_left _ hf.base_mem),
      fun t ht => List.mem_cons_of_mem _ (List.mem_append_right _ (ih t ht))⟩

/-- The bases of the terms of a product are among its symbols. -/
theorem Product.base_mem {symbols : List Symbol} {ts : List Term} (h : Product symbols ts) :
    ∀ t ∈ ts, .base t.base ∈ symbols := by
  cases h with
  | plain hf hmore =>
    rw [List.forall_mem_cons]
    exact ⟨List.mem_append_left _ hf.base_mem,
      fun t ht => List.mem_append_right _ (hmore.base_mem t ht)⟩
  | slash hf hmore => exact (Continuation.slash hf hmore).base_mem

end UnitAlgebra.Grammar
