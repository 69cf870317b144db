import UnitAlgebra.Proofs.NumericText

/-!
# Lexemes in front of a blank

A blank behind a text goes on with none of its lexemes: a base and an exponent end at a blank, and a
slash is part of an exponent only if a digit touches it. So the symbols of a text are followed by
those behind the blank (`symbolsFrom_append_blank`). A text that is no list of lexemes is not mended
by a blank and a star behind it, either, since an exponent that is missing does not start with the
star and one between parentheses does not hold it (`scanFrom_append_star_eq_error`). It could be
mended by a slash. So the symbols of two texts with a star between them are those of the two texts
(`symbolsFrom_append_star_eq_ok_iff`).
-/

namespace UnitAlgebra

namespace Text

/-- A run of characters of a class in a text is not longer where the text goes on with a character
of another class. -/
theorem takeWhile_append_stop {p : Char → Bool} {c : Char} (hc : p c = false)
    (cs more : List Char) : (cs ++ c :: more).takeWhile p = cs.takeWhile p := by
  induction cs with
  | nil => simp [hc]
  | cons d cs ih => simp only [List.cons_append, List.takeWhile_cons, ih]

/-- What follows the run is what followed it in the text, and then the rest. -/
theorem dropWhile_append_stop {p : Char → Bool} {c : Char} (hc : p c = false)
    (cs more : List Char) : (cs ++ c :: more).dropWhile p = cs.dropWhile p ++ c :: more := by
  induction cs with
  | nil => simp [hc]
  | cons d cs ih =>
    simp only [List.cons_append, List.dropWhile_cons, ih]
    split <;> rfl

/-- A text with a separator is cut at the same place when it goes on. -/
theorem cut_append_of_eq_some {separator : Char} {cs before after : List Char}
    (h : cut separator cs = (before, some after)) (more : List Char) :
    cut separator (cs ++ more) = (before, some (after ++ more)) := by
  have hcs := append_cut separator cs
  have hnotMem := notMem_cut_fst separator cs
  rw [h] at hcs hnotMem
  rw [hcs, List.append_assoc]
  exact cut_append _ hnotMem

/-- A text without a separator is in front of the first one of what it goes on with. -/
theorem cut_append_of_notMem {separator : Char} {cs : List Char} (h : separator ∉ cs)
    (more : List Char) :
    cut separator (cs ++ more) = (cs ++ (cut separator more).1, (cut separator more).2) := by
  induction cs with
  | nil => rfl
  | cons c cs ih =>
    have hc : ¬c = separator := fun e => h (by simp [e])
    have hcs : separator ∉ cs := fun e => h (by simp [e])
    simp [cut, hc, ih hcs]

end Text

open UnitAlgebra.Text

/-! ## Exponents -/

namespace Exponent

section Glued

variable {c : Char} (hc : isBlank c = true) (cs more : List Char)
include hc

/-- A blank behind a text has no part in its sign. -/
theorem splitSign_append_blank :
    splitSign (cs ++ c :: more) = ((splitSign cs).1, (splitSign cs).2 ++ c :: more) := by
  cases cs with
  | nil => exact splitSign_of_ne (ne_of_class hc (by decide)) (ne_of_class hc (by decide)) more
  | cons d cs =>
    by_cases hminus : d = '-'
    · subst hminus
      rfl
    · by_cases hplus : d = '+'
      · subst hplus
        rfl
      · rw [List.cons_append, splitSign_of_ne hminus hplus, splitSign_of_ne hminus hplus]
        rfl

/-- A blank behind a text has no part in its denominator. -/
theorem splitDenominator_append_blank :
    splitDenominator (cs ++ c :: more) =
      ((splitDenominator cs).1, (splitDenominator cs).2 ++ c :: more) := by
  obtain ⟨hnumeral, hslash⟩ := class_of_isBlank hc
  cases cs with
  | nil => exact splitDenominator_of_ne hslash more
  | cons d cs =>
    by_cases hd : d = '/'
    · subst hd
      cases cs with
      | nil =>
        -- the slash touches no digit
        have hdigit : c.isDigit = false := (Bool.or_eq_false_iff.1 hnumeral).1
        simp [splitDenominator, hdigit]
      | cons e cs =>
        simp only [List.cons_append, splitDenominator]
        split
        · rw [← List.cons_append, takeWhile_append_stop hnumeral, dropWhile_append_stop hnumeral]
        · rfl
    · rw [List.cons_append, splitDenominator_of_ne hd, splitDenominator_of_ne hd]
      rfl

/-- A blank behind a text has no part in the glued form at its head. -/
theorem gluedSpelling_append_blank : gluedSpelling (cs ++ c :: more) = gluedSpelling cs := by
  have hnumeral := (class_of_isBlank hc).1
  simp only [gluedSpelling, splitSign_append_blank hc, takeWhile_append_stop hnumeral,
    dropWhile_append_stop hnumeral, splitDenominator_append_blank hc]

/-- A blank behind a text stays behind what follows the glued form. -/
theorem afterGlued_append_blank :
    afterGlued (cs ++ c :: more) = afterGlued cs ++ c :: more := by
  have hnumeral := (class_of_isBlank hc).1
  simp only [afterGlued, splitSign_append_blank hc, dropWhile_append_stop hnumeral,
    splitDenominator_append_blank hc]

/-- A glued exponent may end where it does if the text goes on with a blank. -/
theorem mayFollow_append_blank : mayFollow (cs ++ c :: more) = mayFollow cs := by
  cases cs with
  | nil => simp [mayFollow, hc]
  | cons d cs => rfl

/-- A blank behind a text has no part in its glued exponent. -/
theorem readGlued_append_blank_iff {spelling tail : List Char} {value : Rat} :
    readGlued (cs ++ c :: more) = .ok (spelling, value, tail) ↔
      ∃ rest, readGlued cs = .ok (spelling, value, rest) ∧ tail = rest ++ c :: more := by
  simp only [readGlued, gluedSpelling_append_blank hc, afterGlued_append_blank hc,
    mayFollow_append_blank hc]
  split
  · simp
  · split
    · split
      · simp [and_assoc, eq_comm]
      · simp
    · simp

end Glued

/-- An enclosed exponent is closed in front of whatever follows the text. -/
theorem readEnclosed_append {cs spelling rest : List Char} {value : Rat}
    (h : readEnclosed cs = .ok (spelling, value, rest)) (more : List Char) :
    readEnclosed (cs ++ more) = .ok (spelling, value, rest ++ more) := by
  unfold readEnclosed at h ⊢
  split at h
  · cases h
  · next hcut =>
    rw [cut_append_of_eq_some hcut]
    split at h
    · next hvalue =>
      cases h
      simp only [hvalue]
    · cases h

/-- A parenthesis that is closed only behind a star does not enclose an exponent. -/
theorem exists_readEnclosed_of_append {cs more : List Char} (hstar : '*' ∈ (cut ')' more).1)
    {r : List Char × Rat × List Char} (h : readEnclosed (cs ++ more) = .ok r) :
    ∃ s, readEnclosed cs = .ok s := by
  by_cases hmem : ')' ∈ cs
  · -- the parenthesis is closed within the first part
    obtain ⟨content, after, rfl, hcontent⟩ := List.eq_append_cons_of_mem hmem
    have hcut := cut_append after hcontent
    rw [readEnclosed, cut_append_of_eq_some hcut] at h
    rw [readEnclosed, hcut]
    simp only at h ⊢
    split at h
    · exact ⟨_, rfl⟩
    · cases h
  · rw [readEnclosed, cut_append_of_notMem hmem] at h
    split at h
    · cases h
    · next content after hcut =>
      split at h
      · next hvalue =>
        have hnotMem : '*' ∉ content :=
          (Fraction.written_of_read_eq_some hvalue).notMem (by decide) (by decide) (by decide)
        obtain ⟨rfl, -⟩ := Prod.mk.inj hcut
        exact absurd (List.mem_append_right cs hstar) hnotMem
      · cases h

/-- An exponent that is read is read in front of a blank as well. -/
theorem read_append_blank {c : Char} (hc : isBlank c = true) {cs spelling rest : List Char}
    {value : Rat} (h : read cs = .ok (spelling, value, rest)) (more : List Char) :
    read (cs ++ c :: more) = .ok (spelling, value, rest ++ c :: more) := by
  cases cs with
  | nil => cases h
  | cons d cs =>
    by_cases hd : d = '('
    · subst hd
      exact readEnclosed_append h (c :: more)
    · rw [read_of_ne hd] at h
      rw [List.cons_append, read_of_ne hd]
      exact (readGlued_append_blank_iff hc (d :: cs) more).2 ⟨rest, h, rfl⟩

/-- A text that starts with no exponent does not do so in front of a blank and a star, either. -/
theorem exists_read_of_append_star {c : Char} (hc : isBlank c = true) {cs more : List Char}
    {r : List Char × Rat × List Char} (h : read (cs ++ c :: '*' :: more) = .ok r) :
    ∃ s, read cs = .ok s := by
  cases cs with
  | nil => exact absurd (isBlank_head_eq_false h c rfl) (by simp [hc])
  | cons d cs =>
    by_cases hd : d = '('
    · subst hd
      have hclosed : c ≠ ')' := ne_of_class hc (by decide)
      have hstar : '*' ∈ (cut ')' (c :: '*' :: more)).1 := by simp [cut, hclosed]
      exact exists_readEnclosed_of_append hstar h
    · rw [List.cons_append, read_of_ne hd] at h
      rw [read_of_ne hd]
      obtain ⟨spelling, value, tail⟩ := r
      obtain ⟨rest, hrest, -⟩ := (readGlued_append_blank_iff hc (d :: cs) _).1 h
      exact ⟨_, hrest⟩

end Exponent

/-! ## Symbols -/

namespace Lexeme

/-- A blank behind a text goes on with no lexeme. -/
theorem Taken.append_blank {due : Bool} {x : Lexeme} {rest : List Char} (h : Taken due x rest)
    {c : Char} (hc : isBlank c = true) (more : List Char) : Taken due x (rest ++ c :: more) := by
  cases h with
  | operator hgap hsymbol => exact .operator hgap hsymbol
  | base hgap hvalid hrest =>
    refine .base hgap hvalid ?_
    cases rest with
    | nil => simp [isBaseChar, hc]
    | cons d rest => exact hrest
  | exponent hgap hread =>
    have hblank := Exponent.read_append_blank hc hread more
    rw [List.append_assoc] at hblank
    exact .exponent hgap hblank

/-- A lexeme stands at the head of a text with more blanks in front as well. -/
theorem Taken.append_gap {x : Lexeme} {rest : List Char} (h : Taken false x rest) {gap : List Char}
    (hgap : ∀ c ∈ gap, isBlank c = true) :
    Taken false ⟨gap ++ x.gap, x.spelling, x.symbol⟩ rest := by
  cases h with
  | operator hx hsymbol => exact .operator (List.forall_mem_append.2 ⟨hgap, hx⟩) hsymbol
  | base hx hvalid hrest => exact .base (List.forall_mem_append.2 ⟨hgap, hx⟩) hvalid hrest

/-- Where no exponent is due, a text is at fault whose first character but blanks starts no
lexeme. -/
theorem first_false_eq_error_iff {cs : List Char} {f : Failure} :
    first false cs = .error f ↔ ∃ c rest, cs.dropWhile isBlank = c :: rest ∧
      Symbol.operator? c = none ∧ isBaseChar c = false ∧
        f = .reading (String.singleton c) .strayParenthesis := by
  simp only [first, Bool.false_eq_true, if_false]
  cases cs.dropWhile isBlank with
  | nil => simp [firstFactor]
  | cons c rest =>
    rw [firstFactor]
    split
    · next hsymbol => simp [hsymbol]
    · next hsymbol =>
      split
      · next hc => simp [hc]
      · next hc => simp [hsymbol, hc, @eq_comm _ f]

/-- A text that starts with no lexeme does not do so in front of a blank and a star, either. -/
theorem first_append_star_eq_error {due : Bool} {cs : List Char} {f : Failure}
    (h : first due cs = .error f) {c : Char} (hc : isBlank c = true) (more : List Char) :
    ∃ g, first due (cs ++ c :: '*' :: more) = .error g := by
  cases due with
  | false =>
    -- the character at fault is the same
    obtain ⟨d, rest, hcs, hfault⟩ := first_false_eq_error_iff.1 h
    refine ⟨f, first_false_eq_error_iff.2 ⟨d, rest ++ c :: '*' :: more, ?_, hfault⟩⟩
    simp [List.dropWhile_append, hcs]
  | true =>
    simp only [first, if_true, List.dropWhile_append] at h ⊢
    cases hcs : cs.dropWhile isBlank with
    | nil =>
      -- the exponent is missing, and no exponent starts with a star
      have hstar : isBlank '*' = false := by decide
      simp only [List.isEmpty_nil, if_true, List.dropWhile_cons, hc, hstar, Bool.false_eq_true,
        if_false]
      exact ⟨_, rfl⟩
    | cons d rest =>
      rw [hcs] at h
      simp only [List.isEmpty_cons, Bool.false_eq_true, if_false, firstExponent,
        List.cons_append] at h ⊢
      split
      · next hread =>
        rw [← List.cons_append] at hread
        obtain ⟨r, hr⟩ := Exponent.exists_read_of_append_star hc hread
        rw [hr] at h
        cases h
      · exact ⟨_, rfl⟩

/-- A text that is no list of lexemes is none in front of a blank and a star, either. -/
theorem scanFrom_append_star_eq_error {due : Bool} {cs : List Char} {f : Failure}
    (h : scanFrom due cs = .error f) {c : Char} (hc : isBlank c = true) (more : List Char) :
    ∃ g, scanFrom due (cs ++ c :: '*' :: more) = .error g := by
  fun_induction scanFrom due cs with
  | case1 due cs g hfirst =>
    obtain ⟨g, hg⟩ := first_append_star_eq_error hfirst hc more
    exact ⟨g, scanFrom_of_first_eq_error hg⟩
  | case2 due cs hfirst => cases h
  | case3 due cs x rest hfirst g hmore ih =>
    cases h
    obtain ⟨rfl, htaken⟩ := first_eq_some_iff.1 hfirst
    obtain ⟨g, hg⟩ := ih hmore
    refine ⟨g, ?_⟩
    rw [List.append_assoc,
      scanFrom_of_first_eq_some (first_eq_some_iff.2 ⟨rfl, htaken.append_blank hc _⟩), hg]
    rfl
  | case4 due cs x rest hfirst xs hmore ih => cases h

/-- The symbols of a text, given whether an exponent is due at its start. -/
def symbolsFrom (due : Bool) (cs : List Char) : Except Failure (List Symbol) :=
  (scanFrom due cs).map fun xs => xs.map symbol

/-- A text has symbols exactly when it has lexemes. -/
theorem symbolsFrom_eq_ok_iff {due : Bool} {cs : List Char} {symbols : List Symbol} :
    symbolsFrom due cs = .ok symbols ↔ ∃ xs, scanFrom due cs = .ok xs ∧ xs.map symbol = symbols :=
  map_eq_ok_iff

/-- A text has the symbol of its first lexeme and then those of the rest. -/
theorem symbolsFrom_of_first_eq_some {due : Bool} {cs rest : List Char} {x : Lexeme}
    (h : first due cs = .ok (some (x, rest))) :
    symbolsFrom due cs = (symbolsFrom (x.symbol == .caret) rest).map (x.symbol :: ·) := by
  rw [symbolsFrom, symbolsFrom, scanFrom_of_first_eq_some h]
  cases scanFrom (x.symbol == .caret) rest <;> rfl

/-- Blanks in front of a text have no part in its symbols. -/
theorem symbolsFrom_append_of_isBlank {gap : List Char} (hgap : ∀ c ∈ gap, isBlank c = true)
    (cs : List Char) : symbolsFrom false (gap ++ cs) = symbolsFrom false cs := by
  match hfirst : first false cs with
  | .error f =>
    obtain ⟨c, rest, hcs, hfault⟩ := first_false_eq_error_iff.1 hfirst
    have hgapfirst : first false (gap ++ cs) = .error f :=
      first_false_eq_error_iff.2 ⟨c, rest, by rw [List.dropWhile_append_of_pos hgap, hcs], hfault⟩
    rw [symbolsFrom, symbolsFrom, scanFrom_of_first_eq_error hfirst,
      scanFrom_of_first_eq_error hgapfirst]
  | .ok none =>
    have hcs := (first_eq_none_iff.1 hfirst).2
    have hgapfirst : first false (gap ++ cs) = .ok none :=
      first_eq_none_iff.2 ⟨rfl, List.forall_mem_append.2 ⟨hgap, hcs⟩⟩
    rw [symbolsFrom, symbolsFrom, scanFrom_of_first_eq_none hfirst,
      scanFrom_of_first_eq_none hgapfirst]
  | .ok (some (x, rest)) =>
    obtain ⟨hcs, htaken⟩ := first_eq_some_iff.1 hfirst
    have hgapfirst : first false (gap ++ cs) =
        .ok (some (⟨gap ++ x.gap, x.spelling, x.symbol⟩, rest)) :=
      first_eq_some_iff.2 ⟨by simp [hcs, source], htaken.append_gap hgap⟩
    rw [symbolsFrom_of_first_eq_some hfirst, symbolsFrom_of_first_eq_some hgapfirst]

/-- The symbols of a text are followed by those behind a blank. -/
theorem symbolsFrom_append_blank {due : Bool} {cs : List Char} {symbols : List Symbol}
    (h : symbolsFrom due cs = .ok symbols) {c : Char} (hc : isBlank c = true) (more : List Char) :
    symbolsFrom due (cs ++ c :: more) = (symbolsFrom false more).map (symbols ++ ·) := by
  obtain ⟨xs, hxs, rfl⟩ := symbolsFrom_eq_ok_iff.1 h
  obtain ⟨tail, rfl, hscanned⟩ := scanFrom_eq_ok_iff.1 hxs
  clear h hxs
  induction hscanned with
  | @nil tail htail =>
    -- the last blanks of the text and the one behind it are blanks in front of the rest
    have hgap : ∀ d ∈ tail ++ [c], isBlank d = true :=
      List.forall_mem_append.2 ⟨htail, List.forall_mem_singleton.2 hc⟩
    have hsymbols := symbolsFrom_append_of_isBlank hgap more
    simp only [List.append_assoc, List.singleton_append] at hsymbols
    simp only [List.flatMap_nil, List.nil_append, List.map_nil, hsymbols]
    cases symbolsFrom false more <;> rfl
  | @cons due x xs tail htaken _ ih =>
    have hfirst := (htaken.append_blank hc more).first_eq_some
    rw [List.flatMap_cons, List.append_assoc, List.append_assoc, ← List.append_assoc _ tail,
      symbolsFrom_of_first_eq_some hfirst, ih]
    cases symbolsFrom false more <;> rfl

section Operator

variable {c : Char} {symbol : Symbol} (hsymbol : Symbol.operator? c = some symbol)
  (hcaret : symbol ≠ .caret)
include hsymbol hcaret

/-- An operator with a blank behind it has no part in what follows. -/
theorem symbolsFrom_operator (cs : List Char) :
    symbolsFrom false (c :: ' ' :: cs) = (symbolsFrom false cs).map (symbol :: ·) := by
  have htaken : Taken false ⟨[], [c], symbol⟩ (' ' :: cs) := .operator (by simp) hsymbol
  have hdue : (symbol == .caret) = false := by simpa using hcaret
  have hblank : symbolsFrom false (' ' :: cs) = symbolsFrom false cs :=
    symbolsFrom_append_of_isBlank (List.forall_mem_singleton.2 (by decide)) cs
  have hfirst := symbolsFrom_of_first_eq_some htaken.first_eq_some
  rwa [hdue, hblank] at hfirst

/-- The symbols of a text are followed by an operator and those behind it. -/
theorem symbolsFrom_append_operator {cs : List Char} {symbols : List Symbol}
    (h : symbolsFrom false cs = .ok symbols) (ds : List Char) :
    symbolsFrom false (cs ++ ' ' :: c :: ' ' :: ds) =
      (symbolsFrom false ds).map fun back => symbols ++ symbol :: back := by
  rw [symbolsFrom_append_blank h (by decide), symbolsFrom_operator hsymbol hcaret]
  cases symbolsFrom false ds <;> rfl

end Operator

/-- The symbols of two texts with a star between them are those of the texts, with the star between
them: the one text neither mends nor spoils the other. -/
theorem symbolsFrom_append_star_eq_ok_iff {cs ds : List Char} {symbols : List Symbol} :
    symbolsFrom false (cs ++ ' ' :: '*' :: ' ' :: ds) = .ok symbols ↔
      ∃ front back, symbolsFrom false cs = .ok front ∧ symbolsFrom false ds = .ok back ∧
        symbols = front ++ .star :: back := by
  match hcs : scanFrom false cs with
  | .error f =>
    have hblank : isBlank ' ' = true := by decide
    obtain ⟨g, hg⟩ := scanFrom_append_star_eq_error hcs hblank (' ' :: ds)
    simp [symbolsFrom, hcs, hg, Except.map]
  | .ok xs =>
    have hfront : symbolsFrom false cs = .ok (xs.map symbol) :=
      symbolsFrom_eq_ok_iff.2 ⟨xs, hcs, rfl⟩
    have hstar : Symbol.operator? '*' = some .star := rfl
    rw [symbolsFrom_append_operator hstar (by decide) hfront, map_eq_ok_iff]
    simp [hfront, @eq_comm _ symbols]

/-- Where no exponent is due, a lexeme is a slash exactly when the text starts with one but for
blanks. -/
theorem Taken.symbol_eq_slash_iff {x : Lexeme} {rest : List Char} (h : Taken false x rest) :
    x.symbol = .slash ↔ (trimStart (x.source ++ rest)).head? = some '/' := by
  cases h with
  | @operator gap c symbol _ hgap hsymbol =>
    have hblank : ∀ d ∈ (c :: rest).head?, isBlank d = false := by
      simp [(class_of_operator?_eq_some hsymbol).1]
    simp only [source, List.append_assoc, List.singleton_append, trimStart,
      dropWhile_run hgap hblank, List.head?_cons, Option.some.injEq]
    rcases Symbol.operator?_eq_some_iff.1 hsymbol with ⟨rfl, rfl⟩ | ⟨rfl, rfl⟩ | ⟨rfl, rfl⟩ <;>
      simp
  | @base gap name _ hgap hvalid _ =>
    obtain ⟨c, cs, hname⟩ := List.exists_cons_of_ne_nil hvalid.1
    have hc : isBaseChar c = true := hvalid.2 c (by simp [hname])
    have hblank : ∀ d ∈ (c :: (cs ++ rest)).head?, isBlank d = false := by
      simp [(class_of_isBaseChar hc).1]
    have hslash : c ≠ '/' := ne_of_class hc (by decide)
    simp only [source, hname, List.append_assoc, List.cons_append, trimStart,
      dropWhile_run hgap hblank]
    simp [hslash]

/-- The first symbol of a text is a slash exactly when its first character but blanks is. -/
theorem head?_symbolsFrom_eq_slash_iff {cs : List Char} {symbols : List Symbol}
    (h : symbolsFrom false cs = .ok symbols) :
    symbols.head? = some .slash ↔ (trimStart cs).head? = some '/' := by
  obtain ⟨xs, hxs, rfl⟩ := symbolsFrom_eq_ok_iff.1 h
  obtain ⟨tail, rfl, hscanned⟩ := scanFrom_eq_ok_iff.1 hxs
  cases hscanned with
  | nil htail =>
    have hnil : trimStart tail = [] := List.dropWhile_eq_nil_iff.2 htail
    simp [hnil]
  | cons htaken _ =>
    rw [List.flatMap_cons, List.append_assoc, ← htaken.symbol_eq_slash_iff]
    simp

end Lexeme

end UnitAlgebra
