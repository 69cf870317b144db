import UnitAlgebra.Proofs.Rounding

/-!
# The shortest decimal rounds to its number

`Dyadic.Covers` is the interval of the numbers that round to a magnitude, in units of its last
place: half a unit above, half of the gap to the number below, and both ends for an even
significand. The search for the shortest decimal looks at whole numbers on a decimal grid;
`neighbour?_covers` says that a point of a coarser grid is taken only from inside this interval, and
`shortest_covers` that the search ends inside it. The interval is the one between the midpoints of
`Near` (`near_of_covers`), so the rational that a finite word stands for rounds to that word
(`rounds_of_value?_eq_some`). -/

namespace UnitAlgebra

/-! ## The interval of a magnitude -/

namespace Dyadic

/-- The numbers at most half a gap away from a magnitude. The ends belong to an even significand. -/
structure Covers (x : Dyadic) (r : Rat) : Prop where
  /-- At most half of the gap below. -/
  below : 2 * (x.value - r) ≤ x.gapBelow
  /-- At most half a unit above. -/
  above : 2 * (r - x.value) ≤ x.unit
  /-- Less than that for an odd significand. -/
  strict : x.significand % 2 ≠ 0 → 2 * (x.value - r) < x.gapBelow ∧ 2 * (r - x.value) < x.unit

variable {x : Dyadic}

/-- The gap below is positive. -/
theorem gapBelow_pos (x : Dyadic) : 0 < x.gapBelow := by
  have hunit := x.unit_pos
  unfold gapBelow
  split
  · exact half_pos hunit
  · exact hunit

/-- A magnitude is in its interval. -/
theorem covers_value (x : Dyadic) : x.Covers x.value where
  below := by
    rw [sub_self, mul_zero]
    exact x.gapBelow_pos.le
  above := by
    rw [sub_self, mul_zero]
    exact x.unit_pos.le
  strict _ := by
    rw [sub_self, mul_zero]
    exact ⟨x.gapBelow_pos, x.unit_pos⟩

/-! ## The decimal grid -/

/-- The step of the grid is one unit in the last place. -/
theorem step_mul (x : Dyadic) : (x.step : Rat) * 10 ^ x.exponent = x.unit := by
  unfold step exponent unit
  split
  · next hnonneg =>
    obtain ⟨n, hn⟩ := Int.eq_ofNat_of_zero_le hnonneg
    rw [hn, Int.toNat_natCast, zpow_zero, mul_one, zpow_natCast]
    exact Nat.cast_pow 2 n
  · next hneg =>
    obtain ⟨n, hn⟩ := Int.eq_ofNat_of_zero_le (show 0 ≤ -x.power by omega)
    have hpower : x.power = -(n : Int) := by omega
    have hfive : ((Nat.pow 5 n : Nat) : Rat) = 5 ^ n := Nat.cast_pow 5 n
    have hten : (10 : Rat) ^ n = 5 ^ n * 2 ^ n := by
      rw [← mul_pow]
      norm_num
    rw [hn, hpower, Int.toNat_natCast, hfive, zpow_neg, zpow_neg, zpow_natCast, zpow_natCast, hten,
      mul_inv, mul_inv_cancel_left₀ (by positivity)]

/-- The digits on the grid are the magnitude. -/
theorem digits_mul (x : Dyadic) : (x.digits : Rat) * 10 ^ x.exponent = x.value := by
  rw [digits, Nat.cast_mul, mul_assoc, step_mul]
  rfl

/-- A distance on the grid is within half of a unit: at most that, and less for an odd
significand. -/
theorem withinHalf_step_iff {distance : Nat} :
    x.withinHalf x.step distance = true ↔
      2 * (distance * 10 ^ x.exponent) ≤ x.unit ∧
        (x.significand % 2 ≠ 0 → 2 * (distance * 10 ^ x.exponent) < x.unit) := by
  have hgrid : (0 : Rat) < 10 ^ x.exponent := by positivity
  have hle : 2 * (distance * 10 ^ x.exponent) ≤ x.unit ↔ 2 * distance ≤ x.step := by
    rw [← step_mul, ← mul_assoc, mul_le_mul_iff_left₀ hgrid]
    exact_mod_cast Iff.rfl
  have hlt : 2 * (distance * 10 ^ x.exponent) < x.unit ↔ 2 * distance < x.step := by
    rw [← step_mul, ← mul_assoc, mul_lt_mul_iff_left₀ hgrid]
    exact_mod_cast Iff.rfl
  rw [hle, hlt, withinHalf]
  split
  · simp_all
  · simp only [decide_eq_true_eq]
    omega

/-- A point of the grid below the magnitude is in the interval if its distance is taken. -/
theorem covers_of_roundsFromBelow {point distance : Nat} (hpoint : point + distance = x.digits)
    (h : x.roundsFromBelow distance = true) : x.Covers (point * 10 ^ x.exponent) := by
  have hdistance : x.value - point * 10 ^ x.exponent = distance * 10 ^ x.exponent := by
    rw [← digits_mul, ← hpoint]
    push_cast
    ring
  have hnonneg : 0 ≤ (distance : Rat) * 10 ^ x.exponent := by positivity
  have hunit := x.unit_pos
  have hgap : 2 * (distance * 10 ^ x.exponent) ≤ x.gapBelow ∧
      (x.significand % 2 ≠ 0 → 2 * (distance * 10 ^ x.exponent) < x.gapBelow) := by
    unfold roundsFromBelow at h
    unfold gapBelow
    split at h
    · next hnarrow =>
      -- half of a narrow gap is a quarter of a unit, so the distance counts twice
      obtain ⟨hle, hlt⟩ := withinHalf_step_iff.1 h
      push_cast at hle hlt
      rw [if_pos hnarrow]
      exact ⟨by linarith, fun hodd => by linarith [hlt hodd]⟩
    · next hnarrow =>
      rw [if_neg hnarrow]
      exact withinHalf_step_iff.1 h
  refine ⟨?_, by linarith, fun hodd => ⟨?_, by linarith⟩⟩
  · rw [hdistance]
    exact hgap.1
  · rw [hdistance]
    exact hgap.2 hodd

/-- A point of the grid above the magnitude is in the interval if its distance is taken. -/
theorem covers_of_roundsFromAbove {point distance : Nat} (hpoint : point = x.digits + distance)
    (h : x.roundsFromAbove distance = true) : x.Covers (point * 10 ^ x.exponent) := by
  have hdistance : point * 10 ^ x.exponent - x.value = distance * 10 ^ x.exponent := by
    rw [← digits_mul, hpoint]
    push_cast
    ring
  have hnonneg : 0 ≤ (distance : Rat) * 10 ^ x.exponent := by positivity
  have hgap := x.gapBelow_pos
  obtain ⟨hle, hlt⟩ := withinHalf_step_iff.1 h
  refine ⟨by linarith, ?_, fun hodd => ⟨by linarith, ?_⟩⟩
  · rw [hdistance]
    exact hle
  · rw [hdistance]
    exact hlt hodd

/-! ## The search -/

/-- A point that a coarser grid has for the magnitude is in the interval. -/
theorem neighbour?_covers {dropped point : Nat} (h : x.neighbour? dropped = some point) :
    x.Covers (Decimal.value ⟨point, x.exponent + dropped⟩) := by
  have hfine : Decimal.value ⟨point, x.exponent + dropped⟩ =
      ((point * Nat.pow 10 dropped : Nat) : Rat) * 10 ^ x.exponent := by
    have hten : ((Nat.pow 10 dropped : Nat) : Rat) = 10 ^ dropped := Nat.cast_pow 10 dropped
    rw [Decimal.value, zpow_add₀ (by norm_num), zpow_natCast, Nat.cast_mul, hten]
    ring
  have hunit : 0 < Nat.pow 10 dropped := Nat.pow_pos (by norm_num)
  have hdigits := Nat.div_add_mod' x.digits (Nat.pow 10 dropped)
  have hmod := Nat.mod_lt x.digits hunit
  have hlower : x.roundsFromBelow (x.digits % Nat.pow 10 dropped) = true →
      x.Covers ((x.digits / Nat.pow 10 dropped * Nat.pow 10 dropped : Nat) * 10 ^ x.exponent) :=
    covers_of_roundsFromBelow hdigits
  have hupper : x.roundsFromAbove (Nat.pow 10 dropped - x.digits % Nat.pow 10 dropped) = true →
      x.Covers
        (((x.digits / Nat.pow 10 dropped + 1) * Nat.pow 10 dropped : Nat) * 10 ^ x.exponent) := by
    refine covers_of_roundsFromAbove ?_
    rw [Nat.succ_mul]
    omega
  rw [hfine]
  unfold neighbour? at h
  simp only at h
  split at h
  · next hbelow habove =>
    -- both neighbours are in the interval, so either choice is
    obtain rfl := Option.some.inj h
    split
    · exact hlower hbelow
    · exact hupper habove
  · next hbelow _ =>
    obtain rfl := Option.some.inj h
    exact hlower hbelow
  · next _ habove =>
    obtain rfl := Option.some.inj h
    exact hupper habove
  · cases h

/-- The search ends in the interval, whatever number of digits it starts with. -/
theorem coarsest_covers (x : Dyadic) (dropped : Nat) : x.Covers (x.coarsest dropped).value := by
  induction dropped with
  | zero =>
    have hself : (x.coarsest 0).value = x.value := x.digits_mul
    rw [hself]
    exact x.covers_value
  | succ dropped ih =>
    unfold coarsest
    split
    · next point hpoint => exact neighbour?_covers hpoint
    · exact ih

/-- The shortest decimal is in the interval. -/
theorem shortest_covers (x : Dyadic) : x.Covers x.shortest.value :=
  x.coarsest_covers _

end Dyadic

/-! ## Words -/

/-- A decimal is not negative. -/
theorem Decimal.value_nonneg (d : Decimal) : 0 ≤ d.value := by
  unfold value
  positivity

namespace Binary64

/-- The significand of a magnitude is even exactly when its number is. -/
theorem significand_magnitudeAt_mod_two (k : Nat) : (magnitudeAt k).significand % 2 = k % 2 := by
  unfold magnitudeAt
  split
  · simp only
    omega
  · simp only
    omega

/-- The numbers in the interval of a magnitude are near its point. -/
theorem near_of_covers {k : Nat} {r : Rat} (h : (magnitudeAt k).Covers r) : Near r k := by
  have hbelow := h.below
  have habove := h.above
  have hstrict := h.strict
  rw [significand_magnitudeAt_mod_two] at hstrict
  have hprevious := point_natCast_sub_one k
  have hnext := point_natCast_add_one k
  rw [← point_natCast] at hbelow habove hstrict
  refine ⟨by linarith, by linarith, fun hodd => ?_⟩
  obtain ⟨hlower, hupper⟩ := hstrict (by omega)
  constructor <;> linarith

/-- The decimal of a word is in the interval of its magnitude. -/
theorem covers_decimal (x : Binary64) : x.magnitude.Covers x.decimal.value := by
  unfold decimal
  split
  · next hzero =>
    have hself : Decimal.value ⟨0, 0⟩ = x.magnitude.value := by
      simp [Decimal.value, Dyadic.value, hzero]
    rw [hself]
    exact x.magnitude.covers_value
  · exact x.magnitude.shortest_covers

/-- The decimal of a word is near the point of its magnitude. -/
theorem near_decimal (x : Binary64) : Near x.decimal.value x.place :=
  near_of_covers (x.magnitude_eq ▸ x.covers_decimal)

/-- The decimal of a word is zero only for the zeros. -/
theorem decimal_value_eq_zero_iff (x : Binary64) : x.decimal.value = 0 ↔ x.IsZero := by
  rw [isZero_iff]
  constructor
  · intro h
    have hzero : Near 0 ((0 : Nat) : Int) :=
      near_of_covers (value_magnitudeAt_zero ▸ (magnitudeAt 0).covers_value)
    have hplace := (h ▸ x.near_decimal).unique hzero
    exact_mod_cast hplace
  · intro h
    have hsignificand : x.magnitude.significand = 0 := by
      rw [magnitude_eq, h]
      rfl
    simp [decimal, hsignificand, Decimal.value]

/-- The rational that a finite word stands for rounds to the word. -/
theorem rounds_of_value?_eq_some {x : Binary64} {r : Rat} (h : x.value? = some r) :
    Rounds r x := by
  refine Near.rounds ?_
  unfold value? at h
  unfold ordinal
  split at h
  · obtain rfl := Option.some.inj h
    split
    · exact x.near_decimal.neg
    · exact x.near_decimal
  · cases h

end Binary64

end UnitAlgebra
