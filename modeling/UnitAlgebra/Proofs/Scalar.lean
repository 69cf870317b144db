import UnitAlgebra.Proofs.Decimal
import UnitAlgebra.Proofs.Shortest
import UnitAlgebra.Scalar

/-!
# Scalars read back from their texts

`Decimal.positional_spell` says how a decimal is written: in digits with at most one point between
them, which denote its value. So the text of a finite binary number is read as the rational that the
number stands for, the name of an infinity or of what is no number is no fraction, and a scalar and
its text have the same value (`value_text_render`). `scalars_convert_exactly` adds what the value of
a binary number is: a rational that rounds to the number and has its sign. -/

namespace UnitAlgebra

open UnitAlgebra.Text

/-! ## Written decimals -/

namespace Decimal

/-- A written decimal and the number that it denotes: digits, and possibly a point with digits on
both of its sides. -/
inductive Positional : List Char → Rat → Prop
  /-- Digits alone denote a whole number. -/
  | whole {digits : List Char} : digits ≠ [] → (∀ c ∈ digits, c.isDigit = true) →
    Positional digits (Nat.ofDigitChars 10 digits 0)
  /-- The digits after the point count as many places as there are of them. -/
  | pointed {digits places : List Char} : digits ≠ [] → places ≠ [] →
    (∀ c ∈ digits, c.isDigit = true) → (∀ c ∈ places, c.isDigit = true) →
      Positional (digits ++ '.' :: places)
        (Nat.ofDigitChars 10 digits 0 + Nat.ofDigitChars 10 places 0 / 10 ^ places.length)

/-- What is written is an unsigned decimal. -/
theorem Positional.unsigned {cs : List Char} {r : Rat} (h : Positional cs r) : Unsigned cs r := by
  cases h with
  | whole hne hall => exact .whole hne hall
  | pointed hne _ hdigits hplaces => exact .pointed (.inl hne) hdigits hplaces

/-- The zeros that fill places are digits. -/
theorem isDigit_of_mem_zeros {n : Nat} {c : Char} (h : c ∈ List.replicate n '0') :
    c.isDigit = true :=
  List.eq_of_mem_replicate h ▸ by decide

/-- A point inside of digits divides their number by a power of ten. -/
theorem positional_of_point {cs : List Char} {places : Nat} (hall : ∀ c ∈ cs, c.isDigit = true)
    (hplaces : 0 < places) (hlength : places < cs.length) :
    Positional (cs.take (cs.length - places) ++ '.' :: cs.drop (cs.length - places))
      (Nat.ofDigitChars 10 cs 0 / 10 ^ places) := by
  have hsplit := List.take_append_drop (cs.length - places) cs
  have htake : (cs.take (cs.length - places)).length = cs.length - places := by
    rw [List.length_take]
    omega
  have hdrop : (cs.drop (cs.length - places)).length = places := by
    rw [List.length_drop]
    omega
  generalize cs.take (cs.length - places) = digits at hsplit htake ⊢
  generalize cs.drop (cs.length - places) = fraction at hsplit hdrop ⊢
  have hdigits : digits ≠ [] := by
    rw [← List.length_pos_iff]
    omega
  have hfraction : fraction ≠ [] := by
    rw [← List.length_pos_iff]
    omega
  rw [← hsplit] at hall ⊢
  rw [← hdrop, ofDigitChars_append_div]
  exact .pointed hdigits hfraction (List.forall_mem_append.1 hall).1
    (List.forall_mem_append.1 hall).2

/-- A decimal is written in digits that denote its value. -/
theorem positional_spell (d : Decimal) : Positional d.spell d.value := by
  unfold spell value
  by_cases hexponent : 0 ≤ d.exponent
  · -- zeros after the digits multiply by the power of ten
    obtain ⟨zeros, hzeros⟩ := Int.eq_ofNat_of_zero_le hexponent
    have hvalue : (d.digits : Rat) * 10 ^ (zeros : Int) =
        Nat.ofDigitChars 10 (Nat.toDigits 10 d.digits ++ List.replicate zeros '0') 0 := by
      rw [Nat.ofDigitChars_append, Nat.ofDigitChars_replicate_zero, Nat.ofDigitChars_ten_toDigits,
        zpow_natCast]
      push_cast
      ring
    simp only [if_pos hexponent]
    rw [hzeros, Int.toNat_natCast, hvalue]
    exact .whole (by simp [Nat.toDigits_ne_nil]) (List.forall_mem_append.2
      ⟨fun c hc => isDigit_of_mem_digits hc, fun c hc => isDigit_of_mem_zeros hc⟩)
  · -- zeros before the digits make room for the point, and do not count
    obtain ⟨places, hplaces⟩ := Int.eq_ofNat_of_zero_le (show 0 ≤ -d.exponent by omega)
    have hpower : d.exponent = -(places : Int) := by omega
    simp only [if_neg hexponent, hplaces, Int.toNat_natCast]
    rw [hpower, zpow_neg, zpow_natCast, ← div_eq_mul_inv]
    generalize hpadded : List.replicate (places + 1 - (Nat.toDigits 10 d.digits).length) '0' ++
      Nat.toDigits 10 d.digits = padded
    have hall : ∀ c ∈ padded, c.isDigit = true := by
      rw [← hpadded]
      exact List.forall_mem_append.2
        ⟨fun c hc => isDigit_of_mem_zeros hc, fun c hc => isDigit_of_mem_digits hc⟩
    have hdigits : d.digits = Nat.ofDigitChars 10 padded 0 := by
      rw [← hpadded, Nat.ofDigitChars_append, Nat.ofDigitChars_replicate_zero, mul_zero,
        Nat.ofDigitChars_ten_toDigits]
    have hlength : places < padded.length := by
      rw [← hpadded, List.length_append, List.length_replicate]
      omega
    rw [hdigits]
    exact positional_of_point hall (by omega) hlength

end Decimal

/-! ## Binary numbers -/

/-- A decimal without blanks around it is read as a fraction. -/
theorem Fraction.read_of_denotes {cs : List Char} {r : Rat} (h : Decimal.Denotes cs r) :
    Fraction.read cs = some r := by
  have htrim : trim cs = cs := trim_of_all_not_blank fun c hc => (class_of_mem_decimal h hc).1
  rw [read_eq_some_iff, htrim]
  exact .decimal h

namespace Binary64

/-- The characters of a finite number are its sign and its decimal. -/
theorem spell_of_isFinite {x : Binary64} (h : x.isFinite = true) :
    x.spell = (if x.isNegative then ['-'] else []) ++ x.decimal.spell := by
  simp [spell, h]

/-- The characters of what is not finite are one of three names. -/
theorem spell_of_not_isFinite {x : Binary64} (h : x.isFinite = false) :
    x.spell = ['N', 'a', 'N'] ∨ x.spell = ['i', 'n', 'f'] ∨ x.spell = ['-', 'i', 'n', 'f'] := by
  unfold spell
  rw [h]
  by_cases hfraction : x.fractionField = 0 <;> by_cases hnegative : x.isNegative = true <;>
    simp [hfraction, hnegative]

/-- From the characters of a number the rational that it stands for is read, if there is one, as a
decimal and as a fraction alike. -/
theorem read_spell (x : Binary64) :
    Decimal.read x.spell = x.value? ∧ Fraction.read x.spell = x.value? := by
  unfold value?
  by_cases hfinite : x.isFinite = true
  · have hunsigned := x.decimal.positional_spell.unsigned
    have hdenotes : Decimal.Denotes x.spell
        (if x.isNegative then -x.decimal.value else x.decimal.value) := by
      rw [spell_of_isFinite hfinite]
      split
      · exact .minus hunsigned
      · exact .unsigned hunsigned
    rw [if_pos hfinite]
    exact ⟨Decimal.read_eq_some_iff.2 hdenotes, Fraction.read_of_denotes hdenotes⟩
  · rw [if_neg hfinite]
    rcases spell_of_not_isFinite (Bool.eq_false_iff.2 hfinite) with h | h | h <;>
      · rw [h]
        decide

/-- A finite number stands for a rational that rounds to it. It is zero only for the zeros, and else
it has the sign of the number. -/
theorem exists_value?_eq_some {x : Binary64} (h : x.isFinite = true) :
    ∃ r, x.value? = some r ∧ Rounds r x ∧ (r = 0 ∨ (r < 0 ↔ x.isNegative = true)) ∧
      (r = 0 ↔ x.IsZero) := by
  have hvalue : x.value? = some (if x.isNegative then -x.decimal.value else x.decimal.value) :=
    if_pos h
  refine ⟨_, hvalue, rounds_of_value?_eq_some hvalue, ?_, ?_⟩
  · have hnonneg := x.decimal.value_nonneg
    split
    · next hnegative =>
      rcases hnonneg.eq_or_lt with hzero | hpos
      · exact .inl (by rw [← hzero, neg_zero])
      · exact .inr (iff_of_true (neg_lt_zero.2 hpos) hnegative)
    · next hnegative => exact .inr (iff_of_false hnonneg.not_gt hnegative)
  · rw [← decimal_value_eq_zero_iff]
    split
    · exact neg_eq_zero
    · rfl

/-- Finite numbers stand for the same rational exactly if they are the same number. -/
theorem value?_eq_iff {x y : Binary64} (hx : x.isFinite = true) (hy : y.isFinite = true) :
    x.value? = y.value? ↔ x.exact = y.exact := by
  obtain ⟨r, hr, hrounds, -, hrzero⟩ := exists_value?_eq_some hx
  obtain ⟨s, hs, hsrounds, -, hszero⟩ := exists_value?_eq_some hy
  constructor
  · intro h
    obtain rfl : r = s := Option.some.inj (hr.symm.trans (h.trans hs))
    exact hrounds.unique hx hy hsrounds
  · intro h
    rcases (exact_eq_iff x y).1 h with rfl | ⟨hxzero, hyzero⟩
    · rfl
    · rw [hr, hs, hrzero.2 hxzero, hszero.2 hyzero]

end Binary64

/-! ## Scalars -/

namespace Scalar

/-- The value of a binary number is the rational that it stands for. -/
theorem value_binary_eq_ok_iff {x : Binary64} {r : Rat} :
    (binary x).value = .ok r ↔ x.value? = some r := by
  simp only [value]
  cases x.value? <;> simp

/-- A text has the number that is read from it for its value. -/
theorem value_text_eq_ok_iff {s : String} {r : Rat} :
    (text s).value = .ok r ↔ Fraction.read s.toList = some r := by
  simp only [value]
  cases Fraction.read s.toList <;> simp

/-- A scalar and its text have the same value, if they have one. -/
theorem value_text_render (x : Scalar) (r : Rat) :
    (text x.render).value = .ok r ↔ x.value = .ok r := by
  have hfraction : ∀ q : Rat, (text (Fraction.render q)).value = .ok r ↔
      (.ok q : Except Failure Rat) = .ok r := by
    intro q
    rw [value_text_eq_ok_iff, Fraction.toList_render, Fraction.read_spell]
    simp
  cases x with
  | integer n => exact hfraction n
  | binary x =>
    rw [value_text_eq_ok_iff, value_binary_eq_ok_iff, render, Binary64.render, String.toList_ofList,
      x.read_spell.2]
  | rational q => exact hfraction q
  | text s => rfl

end Scalar

/-- A scalar and its text have the same value. The value of a finite binary number is a rational
that rounds to the number and has its sign, so two of them have the same value exactly if they are
the same number, and only the two zeros are two words for one number. The text is a sign and a
written decimal that denote this value. An infinity and what is no number have no value, and their
texts are names. -/
theorem scalars_convert_exactly :
    (∀ (x : Scalar) (r : Rat), (Scalar.text x.render).value = .ok r ↔ x.value = .ok r) ∧
    (∀ x : Binary64, x.isFinite = true → ∃ r, (Scalar.binary x).value = .ok r ∧
      Binary64.Rounds r x ∧ (r = 0 ∨ (r < 0 ↔ x.isNegative = true)) ∧ (r = 0 ↔ x.IsZero)) ∧
    (∀ x y : Binary64, x.isFinite = true → y.isFinite = true →
      ((Scalar.binary x).value = (Scalar.binary y).value ↔ x.exact = y.exact) ∧
      (x.exact = y.exact ↔ x = y ∨ x.IsZero ∧ y.IsZero)) ∧
    (∀ x : Binary64, x.isFinite = true → ∃ cs r,
      x.render.toList = (if x.isNegative then ['-'] else []) ++ cs ∧ Decimal.Positional cs r ∧
      (Scalar.binary x).value = .ok (if x.isNegative then -r else r)) ∧
    ∀ x : Binary64, x.isFinite = false →
      (Scalar.binary x).value = .error (.content (.notFinite x)) ∧
      (x.render = "NaN" ∨ x.render = "inf" ∨ x.render = "-inf") := by
  refine ⟨Scalar.value_text_render, fun x hx => ?_, fun x y hx hy => ⟨?_, x.exact_eq_iff y⟩,
    fun x hx => ?_, fun x hx => ⟨?_, ?_⟩⟩
  · simp only [Scalar.value_binary_eq_ok_iff]
    exact Binary64.exists_value?_eq_some hx
  · obtain ⟨r, hr, -⟩ := Binary64.exists_value?_eq_some hx
    obtain ⟨s, hs, -⟩ := Binary64.exists_value?_eq_some hy
    rw [← Binary64.value?_eq_iff hx hy, hr, hs, Scalar.value_binary_eq_ok_iff.2 hr,
      Scalar.value_binary_eq_ok_iff.2 hs, Except.ok.injEq, Option.some.injEq]
  · refine ⟨x.decimal.spell, x.decimal.value, ?_, x.decimal.positional_spell, ?_⟩
    · rw [Binary64.render, String.toList_ofList, Binary64.spell_of_isFinite hx]
    · exact Scalar.value_binary_eq_ok_iff.2 (if_pos hx)
  · simp [Scalar.value, Binary64.value?, hx]
  · unfold Binary64.render
    rcases Binary64.spell_of_not_isFinite hx with h | h | h
    · exact .inl (by rw [h])
    · exact .inr (.inl (by rw [h]))
    · exact .inr (.inr (by rw [h]))

/-- The number next to one tenth stands for one tenth, which rounds to it, and its text is read as
one tenth; the two zeros stand for one number. -/
theorem scalars_convert_exactly_tenth :
    (Scalar.binary ⟨0x3FB999999999999A⟩).value = .ok (1 / 10) ∧
    Binary64.Rounds (1 / 10) ⟨0x3FB999999999999A⟩ ∧
    (Scalar.text "0.1").value = .ok (1 / 10) ∧
    (Scalar.binary ⟨0⟩).value = (Scalar.binary ⟨0x8000000000000000⟩).value := by
  obtain ⟨htext, hfinite, hsame, -, -⟩ := scalars_convert_exactly
  have hvalue : (Scalar.binary ⟨0x3FB999999999999A⟩).value = .ok (1 / 10) := by decide +kernel
  have hrender : (Scalar.binary ⟨0x3FB999999999999A⟩).render = "0.1" := by decide +kernel
  obtain ⟨r, hr, hrounds, -, -⟩ := hfinite ⟨0x3FB999999999999A⟩ (by decide)
  obtain rfl : r = 1 / 10 := Except.ok.inj (hr.symm.trans hvalue)
  obtain ⟨hequal, hzeros⟩ := hsame ⟨0⟩ ⟨0x8000000000000000⟩ (by decide) (by decide)
  refine ⟨hvalue, hrounds, ?_, hequal.2 (hzeros.2 (.inr ?_))⟩
  · rw [← hrender]
    exact (htext _ _).2 hvalue
  · unfold Binary64.IsZero
    decide

end UnitAlgebra
