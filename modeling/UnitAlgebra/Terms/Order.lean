import UnitAlgebra.Term

/-!
# The order of terms

Terms are ordered by base, code point by code point, and by the value of the exponent where the
bases are the same. `sorted` arranges a list of terms in this order.
-/

namespace UnitAlgebra

namespace Term

/-- How a term stands to another in the order. -/
def compare (a b : Term) : Ordering :=
  if a.base < b.base then .lt
  else if a.base = b.base then
    if a.exponent < b.exponent then .lt
    else if a.exponent = b.exponent then .eq
    else .gt
  else .gt

/-- A term does not come after another. -/
def isLE (a b : Term) : Bool :=
  compare a b != .gt

end Term

namespace Terms

/-- The terms of a list in order. -/
def sorted (ts : List Term) : List Term :=
  ts.mergeSort Term.isLE

/-- Sorting keeps the terms, with their multiplicity. -/
theorem sorted_perm (ts : List Term) : (sorted ts).Perm ts :=
  List.mergeSort_perm ts Term.isLE

end Terms

end UnitAlgebra
