import Mathlib.Data.List.TakeWhile
import UnitAlgebra.Lexeme.Scan

/-!
# What the lexemes of a text are

`Taken` says when a lexeme stands at the head of a text: its gap is blank, its spelling spells its
symbol, and the text after it does not go on with the spelling. An exponent stands where one is due,
and any other lexeme where none is. `first_eq_some_iff` says that `first` takes off a lexeme exactly
when it stands there, and `scanFrom_eq_ok_iff` iterates it to the end of the text: the lexemes of a
text and its last blanks are the text. Whatever else a text holds is a failure of reading
(`isReading_of_scanFrom_eq_error`).
-/

namespace UnitAlgebra.Text

/-- A character of a class differs from any character that is not in it. -/
theorem ne_of_class {p : Char → Bool} {c d : Char} (hc : p c = true) (hd : p d = false) :
    c ≠ d := by
  rintro rfl
  rw [hc] at hd
  cases hd

/-- A run of characters of a class ends where the text goes on with another character. -/
theorem takeWhile_run {p : Char → Bool} {run rest : List Char} (hrun : ∀ c ∈ run, p c = true)
    (hrest : ∀ c ∈ rest.head?, p c = false) : (run ++ rest).takeWhile p = run := by
  rw [List.takeWhile_append_of_pos hrun]
  cases rest with
  | nil => simp
  | cons c rest => simp [hrest c (by simp)]

/-- What follows a run of characters of a class is what the text goes on with. -/
theorem dropWhile_run {p : Char → Bool} {run rest : List Char} (hrun : ∀ c ∈ run, p c = true)
    (hrest : ∀ c ∈ rest.head?, p c = false) : (run ++ rest).dropWhile p = rest := by
  rw [List.dropWhile_append_of_pos hrun]
  cases rest with
  | nil => simp
  | cons c rest => simp [hrest c (by simp)]

/-- A run consists of characters of its class. -/
theorem of_mem_takeWhile {p : Char → Bool} {c : Char} {cs : List Char}
    (h : c ∈ cs.takeWhile p) : p c = true :=
  List.all_eq_true.1 List.all_takeWhile c h

/-- After a run the text ends or goes on with a character of another class. -/
theorem of_mem_head?_dropWhile {p : Char → Bool} {c : Char} {cs : List Char}
    (h : c ∈ (cs.dropWhile p).head?) : p c = false := by
  have hnot := List.head?_dropWhile_not p cs
  rw [Option.mem_def] at h
  rw [h] at hnot
  exact hnot

end UnitAlgebra.Text

namespace UnitAlgebra.Exponent

open UnitAlgebra.Text

/-- A character of a number is no blank. -/
theorem isBlank_eq_false_of_isNumeral {c : Char} (h : isNumeral c = true) : isBlank c = false := by
  simp only [isNumeral, Bool.or_eq_true, beq_iff_eq] at h
  rcases h with h | rfl
  · exact isBlank_eq_false_of_isDigit h
  · decide

/-- A blank ends a number and starts no denominator. -/
theorem class_of_isBlank {c : Char} (h : isBlank c = true) : isNumeral c = false ∧ c ≠ '/' := by
  refine ⟨Bool.eq_false_iff.2 fun hc => ?_, ne_of_class h (by decide)⟩
  exact ne_of_class h (isBlank_eq_false_of_isNumeral hc) rfl

/-- A character that is no sign is not taken off. -/
theorem splitSign_of_ne {c : Char} (hminus : c ≠ '-') (hplus : c ≠ '+') (cs : List Char) :
    splitSign (c :: cs) = ([], c :: cs) := by
  unfold splitSign
  split
  · next e => exact absurd (List.cons.inj e).1 hminus
  · next e => exact absurd (List.cons.inj e).1 hplus
  · rfl

/-- A text that does not start with a slash has no denominator at its head. -/
theorem splitDenominator_of_ne {c : Char} (h : c ≠ '/') (cs : List Char) :
    splitDenominator (c :: cs) = ([], c :: cs) := by
  unfold splitDenominator
  split
  · next e => exact absurd (List.cons.inj e).1 h
  · rfl

/-- A text that does not start with a parenthesis is read as a glued exponent. -/
theorem read_of_ne {c : Char} (h : c ≠ '(') (cs : List Char) :
    read (c :: cs) = readGlued (c :: cs) := by
  unfold read
  split
  · next e => exact absurd (List.cons.inj e).1 h
  · rfl

/-- No glued exponent starts with a blank. -/
theorem gluedSpelling_of_isBlank {c : Char} (hc : isBlank c = true) (cs : List Char) :
    gluedSpelling (c :: cs) = [] := by
  obtain ⟨hnumeral, hslash⟩ := class_of_isBlank hc
  have hsign : splitSign (c :: cs) = ([], c :: cs) :=
    splitSign_of_ne (ne_of_class hc (by decide)) (ne_of_class hc (by decide)) cs
  simp [gluedSpelling, hsign, hnumeral, splitDenominator_of_ne hslash]

/-- No exponent starts with a blank. -/
theorem isBlank_head_eq_false {cs spelling rest : List Char} {value : Rat}
    (h : read cs = .ok (spelling, value, rest)) : ∀ c ∈ cs.head?, isBlank c = false := by
  intro c hc
  cases cs with
  | nil => simp at hc
  | cons d cs =>
    obtain rfl : d = c := by simpa using hc
    rw [Bool.eq_false_iff]
    intro hblank
    -- neither form starts with a blank
    have hparen : d ≠ '(' := ne_of_class hblank (by decide)
    rw [read_of_ne hparen, readGlued, gluedSpelling_of_isBlank hblank] at h
    cases h

/-- An exponent that is not read is a failure of reading. -/
theorem isReading_of_read_eq_error {cs : List Char} {f : Failure} (h : read cs = .error f) :
    f.isReading = true := by
  unfold read readEnclosed readGlued at h
  simp only at h
  -- each way out of the two readers either has a value or is a reading failure
  split at h <;> split at h
  · cases h
    rfl
  · split at h <;> cases h
    rfl
  · cases h
    rfl
  · split at h
    · split at h <;> cases h
      rfl
    · cases h
      rfl

end UnitAlgebra.Exponent

namespace UnitAlgebra.Lexeme

open UnitAlgebra.Text

/-- A lexeme stands at the head of a text, in front of `rest`. The first argument says whether an
exponent is due. -/
inductive Taken : Bool → Lexeme → List Char → Prop
  /-- An operator is one character. -/
  | operator {gap : List Char} {c : Char} {symbol : Symbol} {rest : List Char} :
    (∀ d ∈ gap, isBlank d = true) → Symbol.operator? c = some symbol →
      Taken false ⟨gap, [c], symbol⟩ rest
  /-- A base goes on as long as there are base characters. -/
  | base {gap : List Char} {name : String} {rest : List Char} :
    (∀ d ∈ gap, isBlank d = true) → ValidBase name →
      (∀ d ∈ rest.head?, isBaseChar d = false) → Taken false ⟨gap, name.toList, .base name⟩ rest
  /-- An exponent is what is read as one. -/
  | exponent {gap spelling : List Char} {value : Rat} {rest : List Char} :
    (∀ d ∈ gap, isBlank d = true) → Exponent.read (spelling ++ rest) = .ok (spelling, value, rest) →
      Taken true ⟨gap, spelling, .exponent value⟩ rest

/-- An operator is neither a blank nor a character of a base. -/
theorem class_of_operator?_eq_some {c : Char} {symbol : Symbol}
    (h : Symbol.operator? c = some symbol) : isBlank c = false ∧ isBaseChar c = false := by
  rcases Symbol.operator?_eq_some_iff.1 h with ⟨rfl, -⟩ | ⟨rfl, -⟩ | ⟨rfl, -⟩ <;> decide

/-- A character of a base is neither a blank nor an operator. -/
theorem class_of_isBaseChar {c : Char} (h : isBaseChar c = true) :
    isBlank c = false ∧ Symbol.operator? c = none := by
  refine ⟨by simp_all [isBaseChar], ?_⟩
  rw [Option.eq_none_iff_forall_ne_some]
  intro symbol hsymbol
  rw [(class_of_operator?_eq_some hsymbol).2] at h
  cases h

/-- What `firstFactor` takes off stands at the head of the text. -/
theorem taken_of_firstFactor_eq_some {gap cs rest : List Char} {x : Lexeme}
    (hgap : ∀ d ∈ gap, isBlank d = true) (h : firstFactor gap cs = .ok (some (x, rest))) :
    Taken false x rest := by
  unfold firstFactor at h
  split at h
  · cases h
  · next c cs =>
    split at h
    · next hsymbol =>
      cases h
      exact .operator hgap hsymbol
    · split at h
      · next hc =>
        cases h
        have hvalid : ValidBase (String.ofList (c :: cs.takeWhile isBaseChar)) := by
          refine ⟨by simp, fun d hd => ?_⟩
          rw [String.toList_ofList] at hd
          rcases List.mem_cons.1 hd with rfl | hd
          · exact hc
          · exact of_mem_takeWhile hd
        have hrest : ∀ d ∈ (cs.dropWhile isBaseChar).head?, isBaseChar d = false :=
          fun d hd => of_mem_head?_dropWhile hd
        have htaken := Taken.base hgap hvalid hrest
        rwa [String.toList_ofList] at htaken
      · cases h

/-- What `first` takes off stands at the head of the text. -/
theorem taken_of_first_eq_some {due : Bool} {cs rest : List Char} {x : Lexeme}
    (h : first due cs = .ok (some (x, rest))) : Taken due x rest := by
  have hgap : ∀ d ∈ cs.takeWhile isBlank, isBlank d = true := fun d hd => of_mem_takeWhile hd
  cases due with
  | false => exact taken_of_firstFactor_eq_some hgap h
  | true =>
    unfold first firstExponent at h
    simp only [if_true] at h
    split at h
    · cases h
    · split at h
      · next hread =>
        cases h
        rw [(Exponent.source_of_read_eq_ok hread).1] at hread
        exact .exponent hgap hread
      · cases h

/-- What stands at the head of a text is taken off. -/
theorem Taken.first_eq_some {due : Bool} {x : Lexeme} {rest : List Char} (h : Taken due x rest) :
    first due (x.source ++ rest) = .ok (some (x, rest)) := by
  cases h with
  | @operator gap c symbol _ hgap hsymbol =>
    -- the gap ends at the operator
    have hc : ∀ d ∈ (c :: rest).head?, isBlank d = false := by
      simp [(class_of_operator?_eq_some hsymbol).1]
    simp only [first, source, List.append_assoc, List.singleton_append, takeWhile_run hgap hc,
      dropWhile_run hgap hc, Bool.false_eq_true, if_false, firstFactor, hsymbol]
  | @base gap name _ hgap hvalid hrest =>
    -- the gap ends at the first character of the name, and the name where its characters end
    obtain ⟨c, cs, hname⟩ := List.exists_cons_of_ne_nil hvalid.1
    have hall : ∀ d ∈ c :: cs, isBaseChar d = true := hname ▸ hvalid.2
    obtain ⟨hblank, hoperator⟩ := class_of_isBaseChar (hall c (by simp))
    have hhead : ∀ d ∈ (c :: (cs ++ rest)).head?, isBlank d = false := by simp [hblank]
    have hcs : ∀ d ∈ cs, isBaseChar d = true := fun d hd => hall d (by simp [hd])
    simp only [first, source, hname, List.append_assoc, List.cons_append, takeWhile_run hgap hhead,
      dropWhile_run hgap hhead, Bool.false_eq_true, if_false, firstFactor, hoperator,
      hall c (by simp), if_true, takeWhile_run hcs hrest, dropWhile_run hcs hrest]
    rw [← hname, String.ofList_toList]
  | @exponent gap spelling value _ hgap hread =>
    -- the gap ends where the exponent starts
    have hhead := Exponent.isBlank_head_eq_false hread
    have hne : (spelling ++ rest).isEmpty = false := by
      simp [(Exponent.source_of_read_eq_ok hread).2]
    simp only [first, source, List.append_assoc, takeWhile_run hgap hhead,
      dropWhile_run hgap hhead, if_true, firstExponent, hne, Bool.false_eq_true, if_false, hread]

/-- A lexeme is taken off a text exactly when it stands at the head of it. -/
theorem first_eq_some_iff {due : Bool} {cs rest : List Char} {x : Lexeme} :
    first due cs = .ok (some (x, rest)) ↔ cs = x.source ++ rest ∧ Taken due x rest := by
  constructor
  · exact fun h => ⟨(source_of_first_eq_ok h).1, taken_of_first_eq_some h⟩
  · rintro ⟨rfl, h⟩
    exact h.first_eq_some

/-- No lexeme is left exactly when the text has only blanks and no exponent is due. -/
theorem first_eq_none_iff {due : Bool} {cs : List Char} :
    first due cs = .ok none ↔ due = false ∧ ∀ c ∈ cs, isBlank c = true := by
  have hnil : cs.dropWhile isBlank = [] ↔ ∀ c ∈ cs, isBlank c = true := List.dropWhile_eq_nil_iff
  cases due with
  | false =>
    rw [← hnil]
    simp only [first, Bool.false_eq_true, if_false, true_and]
    cases cs.dropWhile isBlank with
    | nil => simp [firstFactor]
    | cons c rest =>
      simp only [firstFactor, reduceCtorEq, iff_false]
      split
      · simp
      · split <;> simp
  | true =>
    -- where an exponent is due, the end of the text is a failure
    simp only [first, if_true, firstExponent, Bool.true_eq_false, false_and, iff_false]
    split
    · simp
    · split <;> simp

/-- A text that does not start with a lexeme is a failure of reading. -/
theorem isReading_of_first_eq_error {due : Bool} {cs : List Char} {f : Failure}
    (h : first due cs = .error f) : f.isReading = true := by
  cases due with
  | false =>
    simp only [first, Bool.false_eq_true, if_false] at h
    unfold firstFactor at h
    split at h
    · cases h
    · split at h
      · cases h
      · split at h <;> cases h
        rfl
  | true =>
    simp only [first, if_true] at h
    unfold firstExponent at h
    split at h
    · cases h
      rfl
    · split at h
      · cases h
      · next hread =>
        cases h
        exact Exponent.isReading_of_read_eq_error hread

/-- Lexemes make up a text from its head on, in front of its last blanks. -/
inductive Scanned : Bool → List Lexeme → List Char → Prop
  /-- The text ends with blanks, and no exponent is due. -/
  | nil {tail : List Char} : (∀ c ∈ tail, isBlank c = true) → Scanned false [] tail
  /-- A lexeme stands in front of the others; only after a caret is an exponent due. -/
  | cons {due : Bool} {x : Lexeme} {xs : List Lexeme} {tail : List Char} :
    Taken due x (xs.flatMap source ++ tail) → Scanned (x.symbol == .caret) xs tail →
      Scanned due (x :: xs) tail

/-- The lexemes that a text is made of are found. -/
theorem Scanned.scanFrom_eq_ok {due : Bool} {xs : List Lexeme} {tail : List Char}
    (h : Scanned due xs tail) : scanFrom due (xs.flatMap source ++ tail) = .ok xs := by
  induction h with
  | nil htail => exact scanFrom_of_first_eq_none (first_eq_none_iff.2 ⟨rfl, htail⟩)
  | cons htaken _ ih =>
    rw [List.flatMap_cons, List.append_assoc,
      scanFrom_of_first_eq_some (first_eq_some_iff.2 ⟨rfl, htaken⟩), ih]
    rfl

/-- The lexemes that are found make up the text. -/
theorem scanned_of_scanFrom_eq_ok {due : Bool} {cs : List Char} {xs : List Lexeme}
    (h : scanFrom due cs = .ok xs) :
    ∃ tail, cs = xs.flatMap source ++ tail ∧ Scanned due xs tail := by
  fun_induction scanFrom due cs generalizing xs with
  | case1 due cs f hfirst => cases h
  | case2 due cs hfirst =>
    cases h
    obtain ⟨rfl, hblank⟩ := first_eq_none_iff.1 hfirst
    exact ⟨cs, rfl, .nil hblank⟩
  | case3 due cs x rest hfirst f hmore ih => cases h
  | case4 due cs x rest hfirst more hmore ih =>
    cases h
    obtain ⟨tail, rfl, htail⟩ := ih hmore
    obtain ⟨rfl, htaken⟩ := first_eq_some_iff.1 hfirst
    exact ⟨tail, by simp, .cons htaken htail⟩

/-- The scan of a text gives lexemes exactly when the text is made up of them and its last
blanks. -/
theorem scanFrom_eq_ok_iff {due : Bool} {cs : List Char} {xs : List Lexeme} :
    scanFrom due cs = .ok xs ↔ ∃ tail, cs = xs.flatMap source ++ tail ∧ Scanned due xs tail := by
  constructor
  · exact scanned_of_scanFrom_eq_ok
  · rintro ⟨tail, rfl, h⟩
    exact h.scanFrom_eq_ok

/-- A text that is not made up of lexemes is a failure of reading. -/
theorem isReading_of_scanFrom_eq_error {due : Bool} {cs : List Char} {f : Failure}
    (h : scanFrom due cs = .error f) : f.isReading = true := by
  fun_induction scanFrom due cs with
  | case1 due cs g hfirst =>
    cases h
    exact isReading_of_first_eq_error hfirst
  | case2 due cs hfirst => cases h
  | case3 due cs x rest hfirst g hmore ih =>
    cases h
    exact ih hmore
  | case4 due cs x rest hfirst more hmore ih => cases h

/-- The bases among the lexemes of a text are valid. -/
theorem Scanned.validBase {due : Bool} {xs : List Lexeme} {tail : List Char} {name : String}
    (h : Scanned due xs tail) (hname : .base name ∈ xs.map symbol) : ValidBase name := by
  induction h with
  | nil => simp at hname
  | @cons due x xs tail htaken _ ih =>
    rcases List.mem_cons.1 hname with he | hmem
    · cases htaken with
      | operator _ hsymbol =>
        -- no operator is a base
        cases he
        rcases Symbol.operator?_eq_some_iff.1 hsymbol with ⟨-, h⟩ | ⟨-, h⟩ | ⟨-, h⟩ <;> cases h
      | base _ hvalid _ =>
        cases he
        exact hvalid
      | exponent => cases he
    · exact ih hmem

end UnitAlgebra.Lexeme
