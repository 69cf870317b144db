/-!
# Cutting a text at a separator

`cut` divides a text at the first occurrence of a separator. The lemmas say what it gives on a text
without the separator and on one whose part before the separator is known.
-/

namespace UnitAlgebra.Text

/-- The text before the first `separator`, and the text after it if there is one. -/
def cut (separator : Char) : List Char → List Char × Option (List Char)
  | [] => ([], none)
  | c :: rest =>
    if c = separator then ([], some rest)
    else (c :: (cut separator rest).1, (cut separator rest).2)

/-- A text without the separator is not divided. -/
theorem cut_of_notMem {separator : Char} {cs : List Char} (h : separator ∉ cs) :
    cut separator cs = (cs, none) := by
  induction cs with
  | nil => rfl
  | cons c cs ih =>
    have hc : ¬c = separator := fun e => h (by simp [e])
    have hcs : separator ∉ cs := fun e => h (by simp [e])
    simp [cut, hc, ih hcs]

/-- A text is divided at the first separator. -/
theorem cut_append {separator : Char} {before : List Char} (after : List Char)
    (h : separator ∉ before) :
    cut separator (before ++ separator :: after) = (before, some after) := by
  induction before with
  | nil => simp [cut]
  | cons c cs ih =>
    have hc : ¬c = separator := fun e => h (by simp [e])
    have hcs : separator ∉ cs := fun e => h (by simp [e])
    simp [cut, hc, ih hcs]

/-- The part before the separator does not hold the separator. -/
theorem notMem_cut_fst (separator : Char) (cs : List Char) :
    separator ∉ (cut separator cs).1 := by
  induction cs with
  | nil => simp [cut]
  | cons c cs ih =>
    by_cases hc : c = separator
    · simp [cut, hc]
    · simp [cut, hc, ih, Ne.symm hc]

/-- The parts of a divided text, with the separator between them, make up the text. -/
theorem append_cut (separator : Char) (cs : List Char) :
    cs = match cut separator cs with
      | (before, none) => before
      | (before, some after) => before ++ separator :: after := by
  by_cases h : separator ∈ cs
  · obtain ⟨before, after, rfl, hbefore⟩ := List.eq_append_cons_of_mem h
    rw [cut_append after hbefore]
  · rw [cut_of_notMem h]

end UnitAlgebra.Text
