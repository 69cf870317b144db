import UnitAlgebra.Term

/-!
# Spelled exponents

After a caret an exponent is spelled in one of two forms. The enclosed form is a fraction between
parentheses, up to the first closing one. The glued form is an optional sign and a run of digits and
points, and it takes in a slash only when a digit touches it: `m^2/3` has the exponent two thirds,
and `m^2 / 3` divides by `3`. `read` gives the spelling of an exponent at the head of a text, its
value and the rest of the text; `source_of_read_eq_ok` says that the spelling and the rest make up
the text.
-/

namespace UnitAlgebra.Exponent

open UnitAlgebra.Text

/-- The characters of an unsigned number. -/
def isNumeral (c : Char) : Bool :=
  c.isDigit || c == '.'

/-- A sign at the head of a text, and the rest. -/
def splitSign : List Char → List Char × List Char
  | '-' :: cs => (['-'], cs)
  | '+' :: cs => (['+'], cs)
  | cs => ([], cs)

/-- A slash at the head of a text with the number that touches it, and the rest. -/
def splitDenominator : List Char → List Char × List Char
  | '/' :: c :: cs =>
    if c.isDigit then ('/' :: (c :: cs).takeWhile isNumeral, (c :: cs).dropWhile isNumeral)
    else ([], '/' :: c :: cs)
  | cs => ([], cs)

/-- The glued form at the head of a text. -/
def gluedSpelling (cs : List Char) : List Char :=
  (splitSign cs).1 ++ ((splitSign cs).2.takeWhile isNumeral ++
    (splitDenominator ((splitSign cs).2.dropWhile isNumeral)).1)

/-- The text after the glued form at its head. -/
def afterGlued (cs : List Char) : List Char :=
  (splitDenominator ((splitSign cs).2.dropWhile isNumeral)).2

/-- The part of a spelling after its first slash is a zero. -/
def hasZeroDenominator (spelling : List Char) : Bool :=
  match (cut '/' spelling).2 with
  | some denominator => Decimal.read denominator == some 0
  | none => false

/-- A glued exponent ends at the end of the text, a blank or an operator. -/
def mayFollow : List Char → Bool
  | [] => true
  | c :: _ => isBlank c || c == '*' || c == '/' || c == '^'

/-- Reads the enclosed form, given the text after its opening parenthesis. -/
def readEnclosed (cs : List Char) : Except Failure (List Char × Rat × List Char) :=
  match cut ')' cs with
  | (content, none) => .error (.reading (String.ofList ('(' :: content)) .unclosedParenthesis)
  | (content, some rest) =>
    match Fraction.read content with
    | some value => .ok ('(' :: content ++ [')'], value, rest)
    | none => .error (.reading (String.ofList ('(' :: content ++ [')'])) .malformedExponent)

/-- Reads the glued form. The fragment of a failure is the spelling, with one character more if that
character is at fault. -/
def readGlued (cs : List Char) : Except Failure (List Char × Rat × List Char) :=
  let spelling := gluedSpelling cs
  let rest := afterGlued cs
  if spelling.isEmpty then
    .error (.reading (String.ofList (cs.take 1)) .notNumeric)
  else
    match Fraction.read spelling with
    | some value =>
      if mayFollow rest then .ok (spelling, value, rest)
      else .error (.reading (String.ofList (spelling ++ rest.take 1)) .notNumeric)
    | none =>
      .error (.reading (String.ofList spelling)
        (if hasZeroDenominator spelling then .zeroDenominator else .malformedExponent))

/-- Reads the exponent at the head of a text that starts with no blank: its spelling, its value and
the rest of the text. -/
def read : List Char → Except Failure (List Char × Rat × List Char)
  | '(' :: cs => readEnclosed cs
  | cs => readGlued cs

/-- A text is its sign and the rest. -/
theorem splitSign_append (cs : List Char) : (splitSign cs).1 ++ (splitSign cs).2 = cs := by
  unfold splitSign
  split <;> rfl

/-- A text is its denominator and the rest. -/
theorem splitDenominator_append (cs : List Char) :
    (splitDenominator cs).1 ++ (splitDenominator cs).2 = cs := by
  unfold splitDenominator
  split
  · split
    · simp [List.takeWhile_append_dropWhile]
    · rfl
  · rfl

/-- A text is the glued form at its head and the rest. -/
theorem gluedSpelling_append_afterGlued (cs : List Char) :
    gluedSpelling cs ++ afterGlued cs = cs := by
  calc gluedSpelling cs ++ afterGlued cs
      = (splitSign cs).1 ++ ((splitSign cs).2.takeWhile isNumeral ++
          (splitSign cs).2.dropWhile isNumeral) := by
        rw [gluedSpelling, afterGlued, List.append_assoc, List.append_assoc,
          splitDenominator_append]
    _ = (splitSign cs).1 ++ (splitSign cs).2 := by rw [List.takeWhile_append_dropWhile]
    _ = cs := splitSign_append cs

/-- An enclosed exponent that is read is spelled by the text in front of the rest. -/
theorem source_of_readEnclosed_eq_ok {cs spelling rest : List Char} {value : Rat}
    (h : readEnclosed cs = .ok (spelling, value, rest)) :
    '(' :: cs = spelling ++ rest ∧ spelling ≠ [] := by
  have hcut := append_cut ')' cs
  unfold readEnclosed at h
  split at h
  · cases h
  · next content after hc =>
    split at h
    · cases h
      rw [hc] at hcut
      simp [hcut]
    · cases h

/-- A glued exponent that is read is spelled by the text in front of the rest. -/
theorem source_of_readGlued_eq_ok {cs spelling rest : List Char} {value : Rat}
    (h : readGlued cs = .ok (spelling, value, rest)) :
    cs = spelling ++ rest ∧ spelling ≠ [] := by
  unfold readGlued at h
  simp only at h
  split at h
  · cases h
  · next hne =>
    split at h
    · split at h
      · cases h
        exact ⟨(gluedSpelling_append_afterGlued cs).symm, by simpa using hne⟩
      · cases h
    · cases h

/-- An exponent that is read is spelled by the text in front of the rest. -/
theorem source_of_read_eq_ok {cs spelling rest : List Char} {value : Rat}
    (h : read cs = .ok (spelling, value, rest)) : cs = spelling ++ rest ∧ spelling ≠ [] := by
  unfold read at h
  split at h
  · exact source_of_readEnclosed_eq_ok h
  · exact source_of_readGlued_eq_ok h

end UnitAlgebra.Exponent
