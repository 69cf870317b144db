import Mathlib.Algebra.Order.Field.Power
import Mathlib.Algebra.Order.Group.Basic
import Mathlib.Data.Int.ConditionallyCompleteOrder
import Mathlib.Tactic.Linarith
import Mathlib.Tactic.LinearCombination
import Mathlib.Tactic.Positivity
import Mathlib.Tactic.Ring
import UnitAlgebra.Numeral.Binary64

/-!
# Rounding to binary floating-point numbers

`Binary64.exact` is the number that a word is by its fields, and `Binary64.Rounds` says to which
word a number rounds: to the nearest one, and in a tie to the one whose fraction is even.

The words without their sign are numbered in the order of their magnitudes, and each magnitude is
one unit of the last place above the one before (`value_magnitudeAt_succ`). So the numbers of the
format are the values of a strictly monotone function of an integer, `point`, and a word is found by
its `ordinal`. `Near` is the interval of the numbers that round to a finite word (`Near.rounds`,
`Rounds.near`): between the midpoints to the next points on both sides, with both midpoints if the
ordinal is even. Two words of which one number rounds to both have the same ordinal (`Near.unique`),
and two words have the same number only if they are one word or the two zeros (`exact_eq_iff`). -/

namespace UnitAlgebra

/-! ## Magnitudes -/

namespace Dyadic

/-- The number that a significand and a power of two make. -/
def value (x : Dyadic) : Rat :=
  x.significand * 2 ^ x.power

/-- One unit in the last place. -/
def unit (x : Dyadic) : Rat :=
  2 ^ x.power

/-- The distance to the next number below. -/
def gapBelow (x : Dyadic) : Rat :=
  if x.narrowBelow then x.unit / 2 else x.unit

/-- A unit is positive. -/
theorem unit_pos (x : Dyadic) : 0 < x.unit := by
  unfold unit
  positivity

end Dyadic

namespace Binary64

/-- The magnitudes in their order, from zero. The number of a magnitude holds the fields of its
words: the exponent field above fifty-two bits of fraction. -/
def magnitudeAt (k : Nat) : Dyadic :=
  if k / 0x10000000000000 = 0 then
    ⟨k % 0x10000000000000, -1074, false⟩
  else
    ⟨0x10000000000000 + k % 0x10000000000000, ((k / 0x10000000000000 : Nat) : Int) - 1075,
      k % 0x10000000000000 == 0 && 1 < k / 0x10000000000000⟩

/-- The first magnitude is zero. -/
theorem value_magnitudeAt_zero : (magnitudeAt 0).value = 0 := by
  simp [magnitudeAt, Dyadic.value]

/-- The next magnitude has one unit more in its significand, or its significand starts again with
the unit doubled. -/
theorem magnitudeAt_succ_cases (k : Nat) :
    (magnitudeAt (k + 1)).significand = (magnitudeAt k).significand + 1 ∧
      (magnitudeAt (k + 1)).power = (magnitudeAt k).power ∧
      (magnitudeAt (k + 1)).narrowBelow = false ∨
    2 * (magnitudeAt (k + 1)).significand = (magnitudeAt k).significand + 1 ∧
      (magnitudeAt (k + 1)).power = (magnitudeAt k).power + 1 ∧
      (magnitudeAt (k + 1)).narrowBelow = true := by
  unfold magnitudeAt
  by_cases hlast : k % 0x10000000000000 = 0xFFFFFFFFFFFFF
  · -- the fraction is full, so the exponent field changes
    have hdiv : (k + 1) / 0x10000000000000 = k / 0x10000000000000 + 1 := by omega
    have hmod : (k + 1) % 0x10000000000000 = 0 := by omega
    rw [hdiv, hmod, if_neg (Nat.succ_ne_zero _)]
    by_cases hzero : k / 0x10000000000000 = 0
    · -- the normal numbers start with the unit of the subnormal ones
      rw [hzero, if_pos rfl, hlast]
      exact .inl ⟨by norm_num, by norm_num, by norm_num⟩
    · rw [if_neg hzero, hlast]
      refine .inr ⟨by norm_num, ?_, ?_⟩
      · push_cast
        ring
      · simp [Nat.pos_of_ne_zero hzero]
  · have hdiv : (k + 1) / 0x10000000000000 = k / 0x10000000000000 := by omega
    have hmod : (k + 1) % 0x10000000000000 = k % 0x10000000000000 + 1 := by omega
    rw [hdiv, hmod]
    split
    · exact .inl ⟨rfl, rfl, rfl⟩
    · exact .inl ⟨by rw [Nat.add_assoc], rfl, by simp⟩

/-- The next magnitude is one unit above. -/
theorem value_magnitudeAt_succ (k : Nat) :
    (magnitudeAt (k + 1)).value = (magnitudeAt k).value + (magnitudeAt k).unit := by
  unfold Dyadic.value Dyadic.unit
  rcases magnitudeAt_succ_cases k with ⟨hsignificand, hpower, -⟩ | ⟨hsignificand, hpower, -⟩
  · rw [hsignificand, hpower]
    push_cast
    ring
  · have hcast : 2 * ((magnitudeAt (k + 1)).significand : Rat) =
        (magnitudeAt k).significand + 1 := by exact_mod_cast hsignificand
    rw [hpower, zpow_add_one₀ two_ne_zero]
    linear_combination (2 : Rat) ^ (magnitudeAt k).power * hcast

/-- The gap below the next magnitude is the unit of this one. -/
theorem gapBelow_magnitudeAt_succ (k : Nat) :
    (magnitudeAt (k + 1)).gapBelow = (magnitudeAt k).unit := by
  unfold Dyadic.gapBelow Dyadic.unit
  rcases magnitudeAt_succ_cases k with ⟨-, hpower, hnarrow⟩ | ⟨-, hpower, hnarrow⟩
  · rw [hnarrow, hpower, if_neg Bool.false_ne_true]
  · rw [hnarrow, hpower, if_pos rfl, zpow_add_one₀ two_ne_zero, mul_div_cancel_right₀ _ two_ne_zero]

/-! ## Points of the line -/

/-- The numbers of the format in their order, with zero at zero. -/
def point (i : Int) : Rat :=
  if i < 0 then -(magnitudeAt i.natAbs).value else (magnitudeAt i.natAbs).value

/-- The points from zero on are the magnitudes. -/
theorem point_natCast (k : Nat) : point k = (magnitudeAt k).value := by
  rw [point, if_neg (by omega), Int.natAbs_natCast]

/-- The opposite point. -/
theorem point_neg (i : Int) : point (-i) = -point i := by
  unfold point
  rw [Int.natAbs_neg]
  rcases lt_trichotomy i 0 with hi | rfl | hi
  · rw [if_neg (by omega), if_pos hi, neg_neg]
  · simp [value_magnitudeAt_zero]
  · rw [if_pos (by omega), if_neg (by omega)]

/-- The point after a magnitude. -/
theorem point_natCast_add_one (k : Nat) :
    point ((k : Int) + 1) = point k + (magnitudeAt k).unit := by
  rw [point_natCast, ← value_magnitudeAt_succ]
  exact point_natCast (k + 1)

/-- The point before a magnitude, also before zero. -/
theorem point_natCast_sub_one (k : Nat) :
    point ((k : Int) - 1) = point k - (magnitudeAt k).gapBelow := by
  cases k with
  | zero =>
    have hone := point_natCast_add_one 0
    have hgap : (magnitudeAt 0).gapBelow = (magnitudeAt 0).unit := rfl
    have hzero : point 0 = 0 := (point_natCast 0).trans value_magnitudeAt_zero
    rw [Nat.cast_zero, zero_add, hzero, zero_add] at hone
    rw [Nat.cast_zero, zero_sub, point_neg, hone, hzero, hgap, zero_sub]
  | succ k =>
    rw [gapBelow_magnitudeAt_succ, Nat.cast_succ, add_sub_cancel_right, point_natCast_add_one,
      add_sub_cancel_right]

/-- A later point is a larger number. -/
theorem strictMono_point : StrictMono point := by
  have hstep : ∀ k : Nat, point k < point ((k : Int) + 1) := fun k => by
    rw [point_natCast_add_one]
    exact lt_add_of_pos_right _ (magnitudeAt k).unit_pos
  refine strictMono_int_of_lt_succ fun i => ?_
  rcases Int.le_total 0 i with hi | hi
  · obtain ⟨k, rfl⟩ := Int.eq_ofNat_of_zero_le hi
    exact hstep k
  · -- below zero, the opposite points are in the opposite order
    rcases hi.lt_or_eq with hneg | rfl
    · obtain ⟨k, hk⟩ := Int.eq_ofNat_of_zero_le (show 0 ≤ -(i + 1) by omega)
      have hlower : i = -((k : Int) + 1) := by omega
      have hupper : i + 1 = -(k : Int) := by omega
      rw [hupper, hlower, point_neg, point_neg]
      exact neg_lt_neg (hstep k)
    · exact hstep 0

/-! ## Words -/

/-- The word without its sign. -/
def place (x : Binary64) : Nat :=
  x.bits.toNat % 0x8000000000000000

/-- The number of the point at which a word lies. -/
def ordinal (x : Binary64) : Int :=
  if x.isNegative then -(x.place : Int) else x.place

/-- The number that a word is by its fields. The fields of an infinity make the power of two that
follows the largest finite number. -/
def exact (x : Binary64) : Rat :=
  if x.isNegative then -x.magnitude.value else x.magnitude.value

/-- A word that is neither finite nor an infinity. -/
def IsNaN (x : Binary64) : Prop :=
  x.isFinite = false ∧ x.fractionField ≠ 0

/-- A word without a bit but the sign. -/
def IsZero (x : Binary64) : Prop :=
  x.exponentField = 0 ∧ x.fractionField = 0

/-- The exponent field is the upper part of the place. -/
theorem exponentField_eq (x : Binary64) : x.exponentField = x.place / 0x10000000000000 := by
  have hword := x.bits.toNat_lt
  unfold exponentField place
  omega

/-- The fraction is the lower part of the place. -/
theorem fractionField_eq (x : Binary64) : x.fractionField = x.place % 0x10000000000000 := by
  unfold fractionField place
  omega

/-- The magnitude of a word is the one at its place. -/
theorem magnitude_eq (x : Binary64) : x.magnitude = magnitudeAt x.place := by
  unfold magnitude magnitudeAt
  rw [exponentField_eq, fractionField_eq]

/-- A word lies at the point of its ordinal. -/
theorem exact_eq (x : Binary64) : x.exact = point x.ordinal := by
  unfold exact ordinal
  rw [magnitude_eq]
  split
  · rw [point_neg, point_natCast]
  · rw [point_natCast]

/-- The finite words lie in front of the infinities. -/
theorem isFinite_iff (x : Binary64) : x.isFinite = true ↔ x.place < 0x7FF0000000000000 := by
  have hplace : x.place < 0x8000000000000000 := Nat.mod_lt _ (by norm_num)
  rw [isFinite, bne_iff_ne, exponentField_eq]
  omega

/-- What is no number lies behind the infinities. -/
theorem isNaN_iff (x : Binary64) : x.IsNaN ↔ 0x7FF0000000000000 < x.place := by
  have hplace : x.place < 0x8000000000000000 := Nat.mod_lt _ (by norm_num)
  rw [IsNaN, Bool.eq_false_iff, ne_eq, isFinite_iff, fractionField_eq]
  omega

/-- The zeros lie in the middle. -/
theorem isZero_iff (x : Binary64) : x.IsZero ↔ x.place = 0 := by
  rw [IsZero, exponentField_eq, fractionField_eq]
  omega

/-- The ordinal is as far from zero as the place. -/
theorem natAbs_ordinal (x : Binary64) : x.ordinal.natAbs = x.place := by
  unfold ordinal
  split <;> omega

/-- The fraction is even exactly when the ordinal is. -/
theorem fractionField_even_iff (x : Binary64) : x.fractionField % 2 = 0 ↔ x.ordinal % 2 = 0 := by
  have habs := natAbs_ordinal x
  rw [fractionField_eq]
  omega

/-- Every integer up to the infinities is an ordinal. -/
theorem exists_ordinal {i : Int} (hi : i.natAbs ≤ 0x7FF0000000000000) :
    ∃ y : Binary64, ¬y.IsNaN ∧ y.ordinal = i := by
  have hword : (if i < 0 then 0x8000000000000000 else 0) + i.natAbs < 2 ^ 64 := by
    split <;> omega
  refine ⟨⟨.ofNat ((if i < 0 then 0x8000000000000000 else 0) + i.natAbs)⟩, ?_⟩
  rw [isNaN_iff]
  simp only [ordinal, isNegative, place, UInt64.toNat_ofNat_of_lt' hword, decide_eq_true_eq]
  by_cases hneg : i < 0
  · simp only [if_pos hneg]
    constructor
    · omega
    · split <;> omega
  · simp only [if_neg hneg]
    constructor
    · omega
    · split <;> omega

/-- Two words have the same ordinal only if they are one word or the two zeros. -/
theorem ordinal_eq_iff (x y : Binary64) : x.ordinal = y.ordinal ↔ x = y ∨ x.IsZero ∧ y.IsZero := by
  have hbits : x = y ↔ x.bits.toNat = y.bits.toNat := by
    rw [UInt64.toNat_inj]
    exact ⟨fun h => h ▸ rfl, fun h => by cases x; cases y; exact congrArg mk h⟩
  have hx := x.bits.toNat_lt
  have hy := y.bits.toNat_lt
  rw [isZero_iff, isZero_iff, hbits]
  simp only [ordinal, isNegative, place, decide_eq_true_eq]
  split <;> split <;> omega

/-- Two words have the same number only if they are one word or the two zeros. -/
theorem exact_eq_iff (x y : Binary64) : x.exact = y.exact ↔ x = y ∨ x.IsZero ∧ y.IsZero := by
  rw [exact_eq, exact_eq, strictMono_point.injective.eq_iff, ordinal_eq_iff]

/-! ## Rounding to nearest -/

/-- A number rounds to a word that is nearest to it. If another number of the format is as near, the
word has an even fraction. -/
structure Rounds (r : Rat) (x : Binary64) : Prop where
  /-- No word is nearer. -/
  nearest : ∀ y : Binary64, ¬y.IsNaN → |r - x.exact| ≤ |r - y.exact|
  /-- In a tie the fraction is even. -/
  even_of_tie : ∀ y : Binary64, ¬y.IsNaN → y.exact ≠ x.exact → |r - y.exact| = |r - x.exact| →
    x.fractionField % 2 = 0

/-- The numbers that round to a point: between the midpoints to the points on both sides, with the
midpoints if the number of the point is even. -/
structure Near (r : Rat) (i : Int) : Prop where
  /-- Not below the lower midpoint. -/
  below : point (i - 1) + point i ≤ 2 * r
  /-- Not above the upper midpoint. -/
  above : 2 * r ≤ point i + point (i + 1)
  /-- An odd point leaves its midpoints to its neighbours. -/
  strict : i % 2 ≠ 0 → point (i - 1) + point i < 2 * r ∧ 2 * r < point i + point (i + 1)

/-- Of two numbers, the lower one is as near or nearer exactly up to the midpoint. -/
theorem abs_sub_le_iff_of_lt {a b : Rat} (h : a < b) (r : Rat) :
    |r - a| ≤ |r - b| ↔ 2 * r ≤ a + b := by
  have hfactor : (r - b) ^ 2 - (r - a) ^ 2 = (b - a) * (a + b - 2 * r) := by ring
  rw [← sq_le_sq, ← sub_nonneg, hfactor, mul_nonneg_iff_of_pos_left (sub_pos.2 h), sub_nonneg]

/-- Of two numbers, the upper one is as near or nearer exactly from the midpoint on. -/
theorem abs_sub_ge_iff_of_lt {a b : Rat} (h : a < b) (r : Rat) :
    |r - b| ≤ |r - a| ↔ a + b ≤ 2 * r := by
  have hfactor : (r - a) ^ 2 - (r - b) ^ 2 = (b - a) * (2 * r - (a + b)) := by ring
  rw [← sq_le_sq, ← sub_nonneg, hfactor, mul_nonneg_iff_of_pos_left (sub_pos.2 h), sub_nonneg]

/-- A point is nearest to the numbers near it, and in a tie it is even. -/
theorem Near.le_of_ne {r : Rat} {i j : Int} (h : Near r i) (hj : j ≠ i) :
    |r - point i| ≤ |r - point j| ∧ (|r - point j| ≤ |r - point i| → i % 2 = 0) := by
  rcases lt_or_gt_of_ne hj with hlt | hgt
  · have hpoint : point j < point i := strictMono_point hlt
    have hprevious : point j ≤ point (i - 1) := strictMono_point.monotone (by omega)
    rw [abs_sub_ge_iff_of_lt hpoint, abs_sub_le_iff_of_lt hpoint]
    refine ⟨by linarith [h.below], fun htie => ?_⟩
    by_contra hodd
    linarith [(h.strict hodd).1]
  · have hpoint : point i < point j := strictMono_point hgt
    have hnext : point (i + 1) ≤ point j := strictMono_point.monotone (by omega)
    rw [abs_sub_le_iff_of_lt hpoint, abs_sub_ge_iff_of_lt hpoint]
    refine ⟨by linarith [h.above], fun htie => ?_⟩
    by_contra hodd
    linarith [(h.strict hodd).2]

/-- The numbers near the point of a word round to it. -/
theorem Near.rounds {r : Rat} {x : Binary64} (h : Near r x.ordinal) : Rounds r x where
  nearest y _ := by
    rw [exact_eq, exact_eq]
    by_cases hy : y.ordinal = x.ordinal
    · rw [hy]
    · exact (h.le_of_ne hy).1
  even_of_tie y _ hne htie := by
    rw [exact_eq, exact_eq] at hne htie
    rw [fractionField_even_iff]
    have hy : y.ordinal ≠ x.ordinal := fun hy => hne (congrArg point hy)
    exact (h.le_of_ne hy).2 htie.le

/-- The numbers that round to a finite word are near its point. -/
theorem Rounds.near {r : Rat} {x : Binary64} (hx : x.isFinite = true) (h : Rounds r x) :
    Near r x.ordinal := by
  have hplace : x.ordinal.natAbs < 0x7FF0000000000000 := by
    rw [natAbs_ordinal]
    exact (isFinite_iff x).1 hx
  -- both neighbours are finite words or infinities
  obtain ⟨y, hy, hyordinal⟩ := exists_ordinal (i := x.ordinal - 1) (by omega)
  obtain ⟨z, hz, hzordinal⟩ := exists_ordinal (i := x.ordinal + 1) (by omega)
  have hylt : point (x.ordinal - 1) < point x.ordinal := strictMono_point (by omega)
  have hzlt : point x.ordinal < point (x.ordinal + 1) := strictMono_point (by omega)
  have hynearest := h.nearest y hy
  have hznearest := h.nearest z hz
  have hytie := h.even_of_tie y hy
  have hztie := h.even_of_tie z hz
  rw [exact_eq, exact_eq, hyordinal] at hynearest hytie
  rw [exact_eq, exact_eq, hzordinal] at hznearest hztie
  rw [fractionField_even_iff] at hytie hztie
  have hbelow := (abs_sub_ge_iff_of_lt hylt r).1 hynearest
  have habove := (abs_sub_le_iff_of_lt hzlt r).1 hznearest
  refine ⟨hbelow, habove, fun hodd => ⟨lt_of_le_of_ne hbelow fun heq => hodd ?_,
    lt_of_le_of_ne habove fun heq => hodd ?_⟩⟩
  · exact hytie hylt.ne (le_antisymm ((abs_sub_le_iff_of_lt hylt r).2 heq.ge) hynearest)
  · exact hztie hzlt.ne' (le_antisymm ((abs_sub_ge_iff_of_lt hzlt r).2 heq.ge) hznearest)

/-- A number is near one point only. -/
theorem Near.unique {r : Rat} {i j : Int} (hi : Near r i) (hj : Near r j) : i = j := by
  -- of two points, the upper midpoint of the lower one is not above the lower midpoint of the other
  have hnot : ∀ {i j : Int}, Near r i → Near r j → ¬i < j := by
    intro i j hi hj hlt
    have hlower : point i ≤ point (j - 1) := strictMono_point.monotone (by omega)
    have hupper : point (i + 1) ≤ point j := strictMono_point.monotone (by omega)
    have habove := hi.above
    have hbelow := hj.below
    have hnext : i = j - 1 := strictMono_point.injective (by linarith)
    rcases Int.emod_two_eq_zero_or_one i with heven | hodd
    · linarith [(hj.strict (by omega)).1]
    · linarith [(hi.strict (by omega)).2]
  exact le_antisymm (not_lt.1 (hnot hj hi)) (not_lt.1 (hnot hi hj))

/-- A number rounds to one finite number only. -/
theorem Rounds.unique {r : Rat} {x y : Binary64} (hxfinite : x.isFinite = true)
    (hyfinite : y.isFinite = true) (hx : Rounds r x) (hy : Rounds r y) : x.exact = y.exact := by
  rw [exact_eq, exact_eq, (hx.near hxfinite).unique (hy.near hyfinite)]

/-- The opposite numbers are near the opposite point. -/
theorem Near.neg {r : Rat} {i : Int} (h : Near r i) : Near (-r) (-i) := by
  have hprevious : point (-i - 1) = -point (i + 1) := by rw [← point_neg, neg_add']
  have hnext : point (-i + 1) = -point (i - 1) := by rw [← point_neg, neg_sub, neg_add_eq_sub]
  refine ⟨?_, ?_, fun hodd => ?_⟩
  · rw [hprevious, point_neg]
    linarith [h.above]
  · rw [hnext, point_neg]
    linarith [h.below]
  · obtain ⟨hbelow, habove⟩ := h.strict (by omega)
    rw [hprevious, hnext, point_neg]
    constructor <;> linarith

end Binary64

end UnitAlgebra
