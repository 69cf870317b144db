import Mathlib.Data.Rat.Lemmas
import UnitAlgebra.Proofs.Lexeme

/-!
# Written numbers read back

`Fraction.spell` writes a number in lowest terms. `Fraction.read_spell` says that the text reads
back to the number, and `Exponent.read_spell_append` that it is read after a caret as a whole,
whatever blank or end of text follows it: the slash of a written number always touches a digit, so
it is taken in.
-/

namespace UnitAlgebra

open UnitAlgebra.Text

/-- The written digits of a natural number are digits. -/
theorem isDigit_of_mem_digits {n : Nat} {c : Char} (h : c ∈ Nat.toDigits 10 n) :
    c.isDigit = true :=
  Nat.isDigit_of_mem_toDigits (by decide) (by decide) h

/-- A character that is no digit does not occur among written digits. -/
theorem notMem_digits {n : Nat} {c : Char} (hc : c.isDigit = false) : c ∉ Nat.toDigits 10 n :=
  fun h => ne_of_class (isDigit_of_mem_digits h) hc rfl

/-- The digits of a natural number start with a digit. -/
theorem exists_digits_eq_cons (n : Nat) :
    ∃ c cs, Nat.toDigits 10 n = c :: cs ∧ c.isDigit = true := by
  obtain ⟨c, cs, hcs⟩ := List.exists_cons_of_ne_nil (Nat.toDigits_ne_nil : Nat.toDigits 10 n ≠ [])
  exact ⟨c, cs, hcs, isDigit_of_mem_digits (by rw [hcs]; simp)⟩

/-- The written form of an integer: its sign, if it is negative, and its digits. -/
def Decimal.spellInt (n : Int) : List Char :=
  (if n < 0 then ['-'] else []) ++ Nat.toDigits 10 n.natAbs

/-- A decimal without a sign is its magnitude. -/
theorem Decimal.read_of_isDigit {c : Char} (hc : c.isDigit = true) (cs : List Char) :
    Decimal.read (c :: cs) = Decimal.magnitude? (c :: cs) := by
  unfold Decimal.read
  split
  · next e => exact absurd (List.cons.inj e).1 (ne_of_class hc (by decide))
  · next e => exact absurd (List.cons.inj e).1 (ne_of_class hc (by decide))
  · rfl

/-- The written form of an integer reads back. -/
theorem Decimal.read_spellInt (n : Int) : Decimal.read (Decimal.spellInt n) = some (n : Rat) := by
  unfold Decimal.spellInt
  split
  · next hn =>
    rw [List.singleton_append, Decimal.read, Decimal.magnitude?_toDigits, Option.map_some]
    have hneg : (n : Rat) = -(n.natAbs : Rat) := by
      rw [← Int.cast_natCast, ← Int.cast_neg, Int.ofNat_natAbs_of_nonpos hn.le, neg_neg]
    rw [hneg]
  · next hn =>
    obtain ⟨c, cs, hcs, hc⟩ := exists_digits_eq_cons n.natAbs
    rw [List.nil_append, hcs, Decimal.read_of_isDigit hc, ← hcs, Decimal.magnitude?_toDigits]
    have hpos : (n : Rat) = (n.natAbs : Rat) := by
      rw [← Int.cast_natCast, Int.natAbs_of_nonneg (not_lt.1 hn)]
    rw [hpos]

namespace Fraction

/-- What is written of the denominator. -/
def spellDenominator (r : Rat) : List Char :=
  if r.den = 1 then [] else '/' :: Nat.toDigits 10 r.den

/-- A number is written as its numerator and what is written of its denominator. -/
theorem spell_eq (r : Rat) : spell r = Decimal.spellInt r.num ++ spellDenominator r :=
  rfl

/-- The written form of an integer has no blank and no slash. -/
theorem class_of_mem_spellInt {n : Int} {c : Char} (h : c ∈ Decimal.spellInt n) :
    isBlank c = false ∧ c ≠ '/' := by
  unfold Decimal.spellInt at h
  rcases List.mem_append.1 h with h | h
  · split at h
    · rw [List.mem_singleton] at h
      exact h ▸ by decide
    · cases h
  · refine ⟨isBlank_eq_false_of_isDigit (isDigit_of_mem_digits h), ?_⟩
    rintro rfl
    exact notMem_digits (by decide) h

/-- The written form of a number has no blank. -/
theorem isBlank_of_mem_spell {r : Rat} {c : Char} (h : c ∈ spell r) : isBlank c = false := by
  rcases List.mem_append.1 h with h | h
  · exact (class_of_mem_spellInt h).1
  · split at h
    · cases h
    · rcases List.mem_cons.1 h with rfl | h
      · decide
      · exact isBlank_eq_false_of_isDigit (isDigit_of_mem_digits h)

/-- The written form of a number reads back. -/
theorem read_spell (r : Rat) : read (spell r) = some r := by
  have htrim : trim (spell r) = spell r := trim_of_all_not_blank fun c => isBlank_of_mem_spell
  have hslash : '/' ∉ Decimal.spellInt r.num := fun h => (class_of_mem_spellInt h).2 rfl
  unfold read
  rw [htrim, spell_eq, spellDenominator]
  split_ifs with hden
  · -- an integer is written without a slash
    rw [List.append_nil, cut_of_notMem hslash]
    have hnum : (r.num : Rat) = r := Rat.coe_int_num_of_den_eq_one hden
    simp only [Decimal.read_spellInt, hnum]
  · -- the first slash ends the numerator
    rw [cut_append _ hslash]
    obtain ⟨c, cs, hcs, hc⟩ := exists_digits_eq_cons r.den
    have hnumerator : trim (Decimal.spellInt r.num) = Decimal.spellInt r.num :=
      trim_of_all_not_blank fun d hd => (class_of_mem_spellInt hd).1
    have hdenominator : trim (Nat.toDigits 10 r.den) = Nat.toDigits 10 r.den :=
      trim_of_all_not_blank fun d hd => isBlank_eq_false_of_isDigit (isDigit_of_mem_digits hd)
    have hread : Decimal.read (Nat.toDigits 10 r.den) = some (r.den : Rat) := by
      rw [hcs, Decimal.read_of_isDigit hc, ← hcs, Decimal.magnitude?_toDigits]
    have hne : ¬(r.den : Rat) = 0 := by exact_mod_cast r.den_nz
    simp only [hnumerator, hdenominator, Decimal.read_spellInt, hread, if_neg hne, Rat.num_div_den]

end Fraction

namespace Exponent

/-- The sign of a written integer is taken off, whatever follows its digits. -/
theorem splitSign_spellInt_append (n : Int) (rest : List Char) :
    splitSign (Decimal.spellInt n ++ rest) =
      (if n < 0 then ['-'] else [], Nat.toDigits 10 n.natAbs ++ rest) := by
  unfold Decimal.spellInt
  split_ifs
  · rfl
  · obtain ⟨c, cs, hcs, hc⟩ := exists_digits_eq_cons n.natAbs
    rw [List.nil_append, hcs, List.cons_append]
    exact splitSign_of_ne (ne_of_class hc (by decide)) (ne_of_class hc (by decide)) _

/-- What is written of a denominator is taken off as a whole, in front of a blank or the end. -/
theorem splitDenominator_spell_append (r : Rat) {rest : List Char}
    (hrest : ∀ c ∈ rest.head?, isBlank c = true) :
    splitDenominator (Fraction.spellDenominator r ++ rest) =
      (Fraction.spellDenominator r, rest) := by
  have hstop : ∀ c ∈ rest.head?, isNumeral c = false :=
    fun c hc => (class_of_isBlank (hrest c hc)).1
  unfold Fraction.spellDenominator
  split_ifs
  · -- nothing is written of a denominator of one, and a blank is no slash
    cases rest with
    | nil => rfl
    | cons c rest => exact splitDenominator_of_ne (class_of_isBlank (hrest c (by simp))).2 rest
  · -- the slash touches a digit, so it is taken off with the digits
    obtain ⟨c, cs, hcs, hc⟩ := exists_digits_eq_cons r.den
    have hrun : ∀ d ∈ c :: cs, isNumeral d = true := fun d hd => by
      simp [isNumeral, isDigit_of_mem_digits (hcs ▸ hd)]
    rw [hcs, List.cons_append, List.cons_append, splitDenominator, if_pos hc, ← List.cons_append,
      takeWhile_run hrun hstop, dropWhile_run hrun hstop]

/-- A written number is a glued exponent as a whole, in front of a blank or the end of the text. -/
theorem gluedSpelling_spell_append (r : Rat) {rest : List Char}
    (hrest : ∀ c ∈ rest.head?, isBlank c = true) :
    gluedSpelling (Fraction.spell r ++ rest) = Fraction.spell r := by
  have hdigits : ∀ d ∈ Nat.toDigits 10 r.num.natAbs, isNumeral d = true := fun d hd => by
    simp [isNumeral, isDigit_of_mem_digits hd]
  have hstop : ∀ c ∈ (Fraction.spellDenominator r ++ rest).head?, isNumeral c = false := by
    unfold Fraction.spellDenominator
    split_ifs
    · exact fun c hc => (class_of_isBlank (hrest c hc)).1
    · simp only [List.cons_append, List.head?_cons, Option.mem_def, Option.some.injEq]
      rintro c rfl
      decide
  rw [Fraction.spell_eq, List.append_assoc, gluedSpelling, splitSign_spellInt_append]
  simp only [takeWhile_run hdigits hstop, dropWhile_run hdigits hstop,
    splitDenominator_spell_append r hrest, Decimal.spellInt, List.append_assoc]

/-- A written number is read as an exponent, in front of a blank or the end of the text. -/
theorem read_spell_append (r : Rat) {rest : List Char}
    (hrest : ∀ c ∈ rest.head?, isBlank c = true) :
    read (Fraction.spell r ++ rest) = .ok (Fraction.spell r, r, rest) := by
  have hglued := gluedSpelling_spell_append r hrest
  have hafter : afterGlued (Fraction.spell r ++ rest) = rest := by
    have happend := gluedSpelling_append_afterGlued (Fraction.spell r ++ rest)
    rw [hglued] at happend
    exact List.append_cancel_left happend
  have hfollow : mayFollow rest = true := by
    cases rest with
    | nil => rfl
    | cons c rest => simp [mayFollow, hrest c (by simp)]
  have hne : (Fraction.spell r).isEmpty = false := by
    simp [Fraction.spell, Nat.toDigits_ne_nil]
  unfold read
  split
  · next cs hparen =>
    -- a written number starts with no parenthesis
    have hnil : gluedSpelling ('(' :: cs) = [] := rfl
    rw [hparen, hnil] at hglued
    rw [← hglued] at hne
    cases hne
  · rw [readGlued]
    simp only [hglued, hafter, hne, Fraction.read_spell, hfollow, if_true, Bool.false_eq_true,
      if_false]

end Exponent

end UnitAlgebra
