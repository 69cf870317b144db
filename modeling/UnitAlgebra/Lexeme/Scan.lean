import UnitAlgebra.Lexeme.Basic
import UnitAlgebra.Lexeme.Exponent

/-!
# Scanning a text

`first` takes the first lexeme off a text. What it looks for depends on whether an exponent is due,
which is so after a caret and nowhere else: there a slash may belong to the exponent, and a name may
not stand. `scan` repeats it to the end of the text. `source_of_first_eq_ok` says that nothing of
the text is lost on the way.
-/

namespace UnitAlgebra.Lexeme

open UnitAlgebra.Text

/-- The exponent at the head of a text as a lexeme, and the rest of the text. The gap is what stood
between the caret and the text. -/
def firstExponent (gap cs : List Char) : Except Failure (Option (Lexeme × List Char)) :=
  if cs.isEmpty then
    .error (.reading (String.ofList ('^' :: gap)) .caretAtEnd)
  else
    match Exponent.read cs with
    | .ok (spelling, value, rest) => .ok (some (⟨gap, spelling, .exponent value⟩, rest))
    | .error f => .error f

/-- The operator or base at the head of a text as a lexeme, and the rest of the text. -/
def firstFactor (gap : List Char) : List Char → Except Failure (Option (Lexeme × List Char))
  | [] => .ok none
  | c :: cs =>
    match Symbol.operator? c with
    | some symbol => .ok (some (⟨gap, [c], symbol⟩, cs))
    | none =>
      if isBaseChar c then
        let name := c :: cs.takeWhile isBaseChar
        .ok (some (⟨gap, name, .base (String.ofList name)⟩, cs.dropWhile isBaseChar))
      else
        -- what is no blank, no operator and no base character is a parenthesis
        .error (.reading (String.singleton c) .strayParenthesis)

/-- The first lexeme of a text, if there is one, and the rest of the text. -/
def first (exponentDue : Bool) (cs : List Char) : Except Failure (Option (Lexeme × List Char)) :=
  if exponentDue then firstExponent (cs.takeWhile isBlank) (cs.dropWhile isBlank)
  else firstFactor (cs.takeWhile isBlank) (cs.dropWhile isBlank)

/-- An exponent that is taken off is spelled by the text in front of the rest. -/
theorem source_of_firstExponent_eq_ok {gap cs rest : List Char} {x : Lexeme}
    (h : firstExponent gap cs = .ok (some (x, rest))) :
    gap ++ cs = x.source ++ rest ∧ x.spelling ≠ [] := by
  unfold firstExponent at h
  split at h
  · cases h
  · split at h
    · next hread =>
      cases h
      obtain ⟨hsource, hne⟩ := Exponent.source_of_read_eq_ok hread
      exact ⟨by simp [source, hsource], hne⟩
    · cases h

/-- An operator or base that is taken off is spelled by the text in front of the rest. -/
theorem source_of_firstFactor_eq_ok {gap cs rest : List Char} {x : Lexeme}
    (h : firstFactor gap cs = .ok (some (x, rest))) :
    gap ++ cs = x.source ++ rest ∧ x.spelling ≠ [] := by
  unfold firstFactor at h
  split at h
  · cases h
  · split at h
    · cases h
      exact ⟨by simp [source], by simp⟩
    · split at h
      · cases h
        exact ⟨by simp [source, List.takeWhile_append_dropWhile], by simp⟩
      · cases h

/-- A text is its first lexeme and the rest, and the lexeme has at least one character. -/
theorem source_of_first_eq_ok {exponentDue : Bool} {cs rest : List Char} {x : Lexeme}
    (h : first exponentDue cs = .ok (some (x, rest))) :
    cs = x.source ++ rest ∧ x.spelling ≠ [] := by
  have hsplit : cs.takeWhile isBlank ++ cs.dropWhile isBlank = cs :=
    List.takeWhile_append_dropWhile
  unfold first at h
  split at h
  · simpa [hsplit] using source_of_firstExponent_eq_ok h
  · simpa [hsplit] using source_of_firstFactor_eq_ok h

/-- The rest after a first lexeme is shorter than the text. -/
theorem length_rest_lt {exponentDue : Bool} {cs rest : List Char} {x : Lexeme}
    (h : first exponentDue cs = .ok (some (x, rest))) : rest.length < cs.length := by
  obtain ⟨hsource, hne⟩ := source_of_first_eq_ok h
  have hlength := congrArg List.length hsource
  have hpos := List.length_pos_iff.2 hne
  simp only [source, List.length_append] at hlength
  omega

/-- The lexemes of a text, given whether an exponent is due at its start. -/
def scanFrom (exponentDue : Bool) (cs : List Char) : Except Failure (List Lexeme) :=
  match _h : first exponentDue cs with
  | .error f => .error f
  | .ok none => .ok []
  | .ok (some (x, rest)) =>
    match scanFrom (x.symbol == .caret) rest with
    | .error f => .error f
    | .ok more => .ok (x :: more)
termination_by cs.length
decreasing_by exact length_rest_lt _h

/-- A text without a first lexeme has none. -/
theorem scanFrom_of_first_eq_none {exponentDue : Bool} {cs : List Char}
    (h : first exponentDue cs = .ok none) : scanFrom exponentDue cs = .ok [] := by
  rw [scanFrom, h]

/-- A text has the failure that its first lexeme has. -/
theorem scanFrom_of_first_eq_error {exponentDue : Bool} {cs : List Char} {f : Failure}
    (h : first exponentDue cs = .error f) : scanFrom exponentDue cs = .error f := by
  rw [scanFrom, h]

/-- A text has its first lexeme and then the lexemes of the rest. -/
theorem scanFrom_of_first_eq_some {exponentDue : Bool} {cs rest : List Char} {x : Lexeme}
    (h : first exponentDue cs = .ok (some (x, rest))) :
    scanFrom exponentDue cs = (scanFrom (x.symbol == .caret) rest).map (x :: ·) := by
  rw [scanFrom, h]
  show (match scanFrom (x.symbol == .caret) rest with
    | .error f => Except.error f
    | .ok more => Except.ok (x :: more)) = _
  cases scanFrom (x.symbol == .caret) rest <;> rfl

/-- The lexemes of a text. -/
def scan (text : String) : Except Failure (List Lexeme) :=
  scanFrom false text.toList

end UnitAlgebra.Lexeme

namespace UnitAlgebra.Token

/-- The tokens of a text. -/
def scan (text : String) : Except Failure (List Token) :=
  (Lexeme.scan text).map (locate 0)

end UnitAlgebra.Token
