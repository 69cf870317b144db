import UnitAlgebra.Proofs.Decimal

/-!
# The syntax of exponents

`Spelled` says which texts are exponents, what number they denote and where they end. An enclosed
exponent is a fraction between parentheses, up to the first closing one. A glued exponent is the
longest run of a sign, digits and points, and of a slash with digits and points where a digit
touches the slash; it has to be a fraction as a whole, and the text may go on with a blank or an
operator only. `read_eq_ok_iff` says that reading accepts exactly these. -/

namespace UnitAlgebra.Exponent

open UnitAlgebra.Text

/-- The sign in front of a text, if there is one. -/
inductive Sign : List Char → List Char → Prop
  /-- A plus sign. -/
  | plus {following : List Char} : Sign ['+'] following
  /-- A minus sign. -/
  | minus {following : List Char} : Sign ['-'] following
  /-- The text starts with no sign. -/
  | none {following : List Char} : (∀ c ∈ following.head?, c ≠ '+' ∧ c ≠ '-') → Sign [] following

/-- The denominator in front of a text, if a slash and a digit that touches it are there: the slash
and the longest run of digits and points behind it. -/
inductive Denominator : List Char → List Char → Prop
  /-- The text does not start with a slash and a digit. -/
  | none {rest : List Char} : (∀ c more, rest = '/' :: c :: more → c.isDigit = false) →
    Denominator [] rest
  /-- A digit touches the slash. -/
  | some {c : Char} {cs rest : List Char} : c.isDigit = true → (∀ d ∈ cs, isNumeral d = true) →
    (∀ d ∈ rest.head?, isNumeral d = false) → Denominator ('/' :: c :: cs) rest

/-- The longest run in front of a text of which a glued exponent may consist: a sign, digits and
points, and a denominator. -/
inductive Glued : List Char → List Char → Prop
  /-- Each of the three goes as far as it can. -/
  | run {sign digits denominator rest : List Char} :
    Sign sign (digits ++ (denominator ++ rest)) → (∀ c ∈ digits, isNumeral c = true) →
    (∀ c ∈ (denominator ++ rest).head?, isNumeral c = false) → Denominator denominator rest →
      Glued (sign ++ (digits ++ denominator)) rest

/-- An exponent in front of a text, with the number that it denotes. -/
inductive Spelled : List Char → Rat → List Char → Prop
  /-- A fraction between parentheses, with blanks around it. -/
  | enclosed {content rest : List Char} {value : Rat} : ')' ∉ content →
    Fraction.Denotes (trim content) value → Spelled ('(' :: content ++ [')']) value rest
  /-- A run that is a fraction, with no other character than a blank or an operator behind it. -/
  | glued {spelling rest : List Char} {value : Rat} : Glued spelling rest →
    Fraction.Denotes spelling value →
    (∀ c ∈ rest.head?, isBlank c = true ∨ c = '*' ∨ c = '/' ∨ c = '^') → Spelled spelling value rest

/-! ## The run of a glued exponent -/

/-- The sign of a text is its sign. -/
theorem sign_splitSign (cs : List Char) : Sign (splitSign cs).1 (splitSign cs).2 := by
  unfold splitSign
  split
  · exact .minus
  · exact .plus
  · next hminus hplus =>
    refine .none fun c hc => ?_
    cases cs with
    | nil => simp at hc
    | cons d cs =>
      obtain rfl : d = c := by simpa using hc
      exact ⟨fun h => hplus cs (by rw [h]), fun h => hminus cs (by rw [h])⟩

/-- A sign in front of a text is taken off. -/
theorem Sign.splitSign_eq {sign following : List Char} (h : Sign sign following) :
    splitSign (sign ++ following) = (sign, following) := by
  cases h with
  | plus => rfl
  | minus => rfl
  | none hhead =>
    cases following with
    | nil => rfl
    | cons c cs =>
      obtain ⟨hplus, hminus⟩ := hhead c (by simp)
      exact splitSign_of_ne hminus hplus cs

/-- The denominator of a text is its denominator. -/
theorem denominator_splitDenominator (cs : List Char) :
    Denominator (splitDenominator cs).1 (splitDenominator cs).2 := by
  unfold splitDenominator
  split
  · next c cs =>
    split
    · next hc =>
      have hnumeral : isNumeral c = true := by simp [isNumeral, hc]
      rw [List.takeWhile_cons_of_pos hnumeral, List.dropWhile_cons_of_pos hnumeral]
      exact .some hc (fun d hd => of_mem_takeWhile hd) fun d hd => of_mem_head?_dropWhile hd
    · next hc =>
      refine .none fun d more hmore => ?_
      obtain ⟨-, hmore⟩ := List.cons.inj hmore
      obtain ⟨rfl, -⟩ := List.cons.inj hmore
      simpa using hc
  · next hno =>
    refine .none fun c more hmore => ?_
    exact absurd hmore (hno c more)

/-- A denominator in front of a text is taken off. -/
theorem Denominator.splitDenominator_eq {denominator rest : List Char}
    (h : Denominator denominator rest) :
    splitDenominator (denominator ++ rest) = (denominator, rest) := by
  cases h with
  | none hrest =>
    rw [List.nil_append]
    unfold splitDenominator
    split
    · next c more =>
      have hc := hrest c more rfl
      simp [hc]
    · rfl
  | @some c cs _ hc hcs hrest =>
    have hrun : ∀ d ∈ c :: cs, isNumeral d = true :=
      List.forall_mem_cons.2 ⟨by simp [isNumeral, hc], hcs⟩
    rw [List.cons_append, List.cons_append, splitDenominator, if_pos hc, ← List.cons_append,
      takeWhile_run hrun hrest, dropWhile_run hrun hrest]

/-- The glued form at the head of a text is the longest run of this form. -/
theorem glued_gluedSpelling (cs : List Char) : Glued (gluedSpelling cs) (afterGlued cs) := by
  have hdenominator := denominator_splitDenominator ((splitSign cs).2.dropWhile isNumeral)
  have happend := splitDenominator_append ((splitSign cs).2.dropWhile isNumeral)
  refine .run ?_ (fun c hc => of_mem_takeWhile hc) ?_ hdenominator
  · rw [afterGlued, happend, List.takeWhile_append_dropWhile]
    exact sign_splitSign cs
  · rw [afterGlued, happend]
    exact fun c hc => of_mem_head?_dropWhile hc

/-- The longest run in front of a text is the glued form at its head. -/
theorem Glued.gluedSpelling_eq {spelling rest : List Char} (h : Glued spelling rest) :
    gluedSpelling (spelling ++ rest) = spelling ∧ afterGlued (spelling ++ rest) = rest := by
  have hspelling : gluedSpelling (spelling ++ rest) = spelling := by
    cases h with
    | @run sign digits denominator _ hsign hdigits hstop hdenominator =>
      simp only [gluedSpelling, List.append_assoc, hsign.splitSign_eq, takeWhile_run hdigits hstop,
        dropWhile_run hdigits hstop, hdenominator.splitDenominator_eq]
  have happend := gluedSpelling_append_afterGlued (spelling ++ rest)
  rw [hspelling] at happend
  exact ⟨hspelling, List.append_cancel_left happend⟩

/-- A run consists of base characters and slashes. -/
theorem Glued.class_of_mem {spelling rest : List Char} (h : Glued spelling rest) {c : Char}
    (hc : c ∈ spelling) : isBaseChar c = true ∨ c = '/' := by
  have hnumeral : ∀ {d : Char}, isNumeral d = true → isBaseChar d = true := fun hd =>
    Decimal.isBaseChar_of_isNumeral hd
  cases h with
  | run hsign hdigits _ hdenominator =>
    rcases List.mem_append.1 hc with hc | hc
    · have hcase : c = '+' ∨ c = '-' := by
        cases hsign with
        | plus => exact .inl (by simpa using hc)
        | minus => exact .inr (by simpa using hc)
        | none => simp at hc
      rcases hcase with rfl | rfl <;> exact .inl (by decide)
    · rcases List.mem_append.1 hc with hc | hc
      · exact .inl (hnumeral (hdigits c hc))
      · cases hdenominator with
        | none => simp at hc
        | @some d ds _ hd hds _ =>
          rcases List.mem_cons.1 hc with rfl | hc
          · exact .inr rfl
          · rcases List.mem_cons.1 hc with rfl | hc
            · exact .inl (hnumeral (by simp [isNumeral, hd]))
            · exact .inl (hnumeral (hds c hc))

/-- A run has no blank. -/
theorem Glued.isBlank_eq_false {spelling rest : List Char} (h : Glued spelling rest) :
    ∀ c ∈ spelling, isBlank c = false := by
  intro c hc
  rcases h.class_of_mem hc with hbase | rfl
  · exact (Lexeme.class_of_isBaseChar hbase).1
  · decide

/-! ## Reading -/

/-- A glued exponent may end in front of a blank, an operator or the end of the text. -/
theorem mayFollow_iff {rest : List Char} : mayFollow rest = true ↔
    ∀ c ∈ rest.head?, isBlank c = true ∨ c = '*' ∨ c = '/' ∨ c = '^' := by
  cases rest with
  | nil => simp [mayFollow]
  | cons c cs => simp [mayFollow, or_assoc]

/-- A run is read as the number that it denotes, if it denotes one. -/
theorem Glued.read_eq_some_iff {spelling rest : List Char} (h : Glued spelling rest) {value : Rat} :
    Fraction.read spelling = some value ↔ Fraction.Denotes spelling value := by
  rw [Fraction.read_eq_some_iff, trim_of_all_not_blank h.isBlank_eq_false]

/-- Exactly the enclosed exponents are read between parentheses. -/
theorem readEnclosed_eq_ok_iff {cs spelling rest : List Char} {value : Rat} :
    readEnclosed cs = .ok (spelling, value, rest) ↔
      ∃ content, cs = content ++ ')' :: rest ∧ ')' ∉ content ∧
        Fraction.Denotes (trim content) value ∧ spelling = '(' :: content ++ [')'] := by
  constructor
  · intro h
    have hcs := append_cut ')' cs
    have hcontent := notMem_cut_fst ')' cs
    unfold readEnclosed at h
    split at h
    · cases h
    · next content after hcut =>
      rw [hcut] at hcs hcontent
      split at h
      · next hvalue =>
        cases h
        exact ⟨content, hcs, hcontent, Fraction.read_eq_some_iff.1 hvalue, rfl⟩
      · cases h
  · rintro ⟨content, rfl, hcontent, hvalue, rfl⟩
    rw [readEnclosed, cut_append rest hcontent]
    simp only [Fraction.read_eq_some_iff.2 hvalue]

/-- Exactly the glued exponents are read without parentheses. -/
theorem readGlued_eq_ok_iff {cs spelling rest : List Char} {value : Rat} :
    readGlued cs = .ok (spelling, value, rest) ↔ cs = spelling ++ rest ∧ Glued spelling rest ∧
      Fraction.Denotes spelling value ∧
        ∀ c ∈ rest.head?, isBlank c = true ∨ c = '*' ∨ c = '/' ∨ c = '^' := by
  constructor
  · intro h
    have hglued := glued_gluedSpelling cs
    unfold readGlued at h
    simp only at h
    split at h
    · cases h
    · split at h
      · next hvalue =>
        split at h
        · next hfollow =>
          cases h
          exact ⟨(gluedSpelling_append_afterGlued cs).symm, hglued,
            hglued.read_eq_some_iff.1 hvalue, mayFollow_iff.1 hfollow⟩
        · cases h
      · cases h
  · rintro ⟨rfl, hglued, hvalue, hfollow⟩
    obtain ⟨hspelling, hrest⟩ := hglued.gluedSpelling_eq
    have hne : spelling.isEmpty = false := List.isEmpty_eq_false_iff.2 hvalue.ends.1
    rw [readGlued]
    simp only [hspelling, hrest, hne, hglued.read_eq_some_iff.2 hvalue, mayFollow_iff.2 hfollow,
      Bool.false_eq_true, if_false, if_true]

/-- Exactly the exponents are read, with the numbers that they denote. -/
theorem read_eq_ok_iff {cs spelling rest : List Char} {value : Rat} :
    read cs = .ok (spelling, value, rest) ↔
      cs = spelling ++ rest ∧ Spelled spelling value rest := by
  constructor
  · intro h
    unfold read at h
    split at h
    · obtain ⟨content, rfl, hcontent, hvalue, rfl⟩ := readEnclosed_eq_ok_iff.1 h
      exact ⟨by simp, .enclosed hcontent hvalue⟩
    · obtain ⟨rfl, hglued, hvalue, hfollow⟩ := readGlued_eq_ok_iff.1 h
      exact ⟨rfl, .glued hglued hvalue hfollow⟩
  · rintro ⟨rfl, h⟩
    cases h with
    | @enclosed content _ _ hcontent hvalue =>
      have hread : readEnclosed (content ++ ')' :: rest) = _ :=
        readEnclosed_eq_ok_iff.2 ⟨content, rfl, hcontent, hvalue, rfl⟩
      simpa [read] using hread
    | glued hglued hvalue hfollow =>
      have hread := readGlued_eq_ok_iff.2 ⟨rfl, hglued, hvalue, hfollow⟩
      obtain ⟨c, cs, hspelling⟩ := List.exists_cons_of_ne_nil hvalue.ends.1
      have hparen : c ≠ '(' := by
        rcases hglued.class_of_mem (c := c) (by simp [hspelling]) with hc | rfl
        · exact ne_of_class hc (by decide)
        · decide
      rw [hspelling, List.cons_append] at hread ⊢
      rwa [read_of_ne hparen]

end UnitAlgebra.Exponent
