import UnitAlgebra.Proofs.Fragment

/-!
# Blanks between tokens

Blanks may be put in front of tokens and at the end of a text without any effect on its symbols, and
so on what is read (`spacing_insignificant`). The slash needs the most care, since the character
behind it decides whether it belongs to an exponent: in `m^2/s` a blank on either side of the slash
must not change the exponent.

`Text.Spaced` says that a text is another one with blanks put in at given byte positions. The blanks
in front of a lexeme go into its gap, and the lexeme itself stays as it is as long as no blank is
put inside of it (`Spaced.exists_gap_append`). What decides where a lexeme ends is the character
behind it, and for the slash the one after; each of them is either the same or a blank, and a blank
ends everything (`Taken.spaced`). -/

namespace UnitAlgebra

/-! ## Blanks put into a text -/

namespace Text

/-- A text with blanks put in at byte positions in `places` and nowhere else. The number is the
position of the first character. -/
inductive Spaced (places : Nat → Prop) : Nat → List Char → List Char → Prop
  /-- The text ends. -/
  | nil {position : Nat} : Spaced places position [] []
  /-- A character of the text stays. -/
  | keep {position : Nat} {c : Char} {cs ds : List Char} :
    Spaced places (position + c.utf8Size) cs ds → Spaced places position (c :: cs) (c :: ds)
  /-- A blank is put in front of the text. -/
  | blank {position : Nat} {c : Char} {cs ds : List Char} : places position → isBlank c = true →
    Spaced places position cs ds → Spaced places position cs (c :: ds)

section Spaced

variable {places : Nat → Prop} {position : Nat}

/-- A blank text with further blanks is blank. -/
theorem Spaced.forall_isBlank {cs ds : List Char} (h : Spaced places position cs ds)
    (hcs : ∀ c ∈ cs, isBlank c = true) : ∀ c ∈ ds, isBlank c = true := by
  induction h with
  | nil => exact hcs
  | keep _ ih =>
    obtain ⟨hc, hmore⟩ := List.forall_mem_cons.1 hcs
    exact List.forall_mem_cons.2 ⟨hc, ih hmore⟩
  | blank _ hc _ ih => exact List.forall_mem_cons.2 ⟨hc, ih hcs⟩

/-- Blanks put into a gap or in front of the character behind it make a gap again. -/
theorem Spaced.exists_gap {gap rest ds : List Char} {c : Char}
    (h : Spaced places position (gap ++ c :: rest) ds) (hgap : ∀ d ∈ gap, isBlank d = true) :
    ∃ gap' ds', ds = gap' ++ c :: ds' ∧ (∀ d ∈ gap', isBlank d = true) ∧
      Spaced places (position + byteLength gap + c.utf8Size) rest ds' := by
  generalize hcs : gap ++ c :: rest = cs at h
  induction h generalizing gap with
  | nil => simp at hcs
  | @keep position d cs ds hmore ih =>
    cases gap with
    | nil =>
      obtain ⟨rfl, rfl⟩ := List.cons.inj hcs
      exact ⟨[], ds, rfl, by simp, by simpa [byteLength] using hmore⟩
    | cons e gap =>
      obtain ⟨rfl, rfl⟩ := List.cons.inj hcs
      obtain ⟨he, hgap⟩ := List.forall_mem_cons.1 hgap
      obtain ⟨gap', ds', rfl, hgap', hrest⟩ := ih hgap rfl
      refine ⟨e :: gap', ds', rfl, List.forall_mem_cons.2 ⟨he, hgap'⟩, ?_⟩
      rwa [byteLength, ← Nat.add_assoc]
  | @blank position d cs ds _ hd _ ih =>
    obtain ⟨gap', ds', rfl, hgap', hrest⟩ := ih hgap hcs
    exact ⟨d :: gap', ds', rfl, List.forall_mem_cons.2 ⟨hd, hgap'⟩, hrest⟩

/-- A text with no place in front of any of its characters stays as it is. -/
theorem Spaced.exists_rigid {cs rest ds : List Char} (h : Spaced places position (cs ++ rest) ds)
    (hno : ∀ p, position ≤ p → p < position + byteLength cs → ¬places p) :
    ∃ ds', ds = cs ++ ds' ∧ Spaced places (position + byteLength cs) rest ds' := by
  induction cs generalizing position ds with
  | nil => exact ⟨ds, rfl, h⟩
  | cons c cs ih =>
    have hc := c.utf8Size_pos
    rw [byteLength] at hno
    cases h with
    | keep hmore =>
      obtain ⟨ds', rfl, hrest⟩ := ih hmore fun p hlow hhigh => hno p (by omega) (by omega)
      refine ⟨ds', rfl, ?_⟩
      rwa [byteLength, ← Nat.add_assoc]
    | blank hplace _ _ => exact absurd hplace (hno position le_rfl (by omega))

/-- Blanks put into a gap or in front of the part of the text behind it, and not inside of this
part, make a gap in front of the same part again. -/
theorem Spaced.exists_gap_append {gap part rest ds : List Char}
    (h : Spaced places position (gap ++ (part ++ rest)) ds)
    (hgap : ∀ d ∈ gap, isBlank d = true) (hne : part ≠ [])
    (hno : ∀ p, places p → ¬(position + byteLength gap < p ∧
      p < position + byteLength gap + byteLength part)) :
    ∃ gap' ds', ds = gap' ++ (part ++ ds') ∧ (∀ d ∈ gap', isBlank d = true) ∧
      Spaced places (position + byteLength gap + byteLength part) rest ds' := by
  -- the first character of the part ends the gap, and the others follow it as before
  obtain ⟨c, cs, rfl⟩ := List.exists_cons_of_ne_nil hne
  have hc := c.utf8Size_pos
  rw [byteLength] at hno ⊢
  obtain ⟨gap', front, rfl, hgap', hfront⟩ := h.exists_gap hgap
  obtain ⟨behind, rfl, hbehind⟩ := hfront.exists_rigid fun p hlow hhigh hp =>
    hno p hp ⟨by omega, by omega⟩
  refine ⟨gap', behind, rfl, hgap', ?_⟩
  rwa [← Nat.add_assoc]

/-- A text with blanks put in starts with a blank or as before. -/
theorem Spaced.head_cases {cs ds : List Char} (h : Spaced places position cs ds) :
    ∀ c ∈ ds.head?, isBlank c = true ∨ c ∈ cs.head? := by
  cases h with
  | nil => simp
  | keep => simp
  | blank _ hblank _ => simp [hblank]

/-- What the text behind `front` may start with, it may start with when blanks are put in, if blanks
are among it. -/
theorem Spaced.head_append {cs ds : List Char} (h : Spaced places position cs ds)
    {P : Char → Prop} (hblank : ∀ c, isBlank c = true → P c) (front : List Char)
    (hcs : ∀ c ∈ (front ++ cs).head?, P c) : ∀ c ∈ (front ++ ds).head?, P c := by
  cases front with
  | nil => exact fun c hc => (h.head_cases c hc).elim (hblank c) (hcs c)
  | cons d front => exact hcs

end Spaced

/-- A slice stops within the text. -/
theorem Slice.stop_le {text part : String} {start stop : Nat} (h : Slice text start stop part) :
    stop ≤ text.utf8ByteSize := by
  obtain ⟨before, after, rfl, rfl, rfl⟩ := h
  simp only [String.utf8ByteSize_append]
  omega

end Text

open UnitAlgebra.Text

/-! ## Exponents in front of further blanks -/

namespace Exponent

section Spaced

variable {places : Nat → Prop} {position : Nat} {rest rest' : List Char}

/-- The run of a glued exponent ends where it does when blanks are put in behind it. -/
theorem Glued.spaced {spelling : List Char} (h : Glued spelling rest)
    (hrest : Spaced places position rest rest') : Glued spelling rest' := by
  cases h with
  | @run sign digits denominator _ hsign hdigits hstop hdenominator =>
    refine .run ?_ hdigits (hrest.head_append (fun c hc => (class_of_isBlank hc).1) _ hstop) ?_
    · cases hsign with
      | plus => exact .plus
      | minus => exact .minus
      | none hhead =>
        rw [← List.append_assoc] at hhead ⊢
        exact .none (hrest.head_append
          (fun c hc => ⟨ne_of_class hc (by decide), ne_of_class hc (by decide)⟩) _ hhead)
    · cases hdenominator with
      | some hc hcs hhead =>
        exact .some hc hcs (hrest.head_append (fun c hc => (class_of_isBlank hc).1) [] hhead)
      | none hno =>
        -- behind the slash stands a blank or the same character, neither of which is a digit
        refine .none fun c more hmore => ?_
        subst hmore
        cases hrest with
        | blank _ hslash _ => exact absurd rfl (ne_of_class hslash (by decide))
        | @keep _ _ cs _ hbehind =>
          rcases hbehind.head_cases c rfl with hc | hc
          · exact (Bool.or_eq_false_iff.1 (class_of_isBlank hc).1).1
          · obtain ⟨more, rfl⟩ := List.head?_eq_some_iff.1 hc
            exact hno c more rfl

/-- An exponent ends where it does when blanks are put in behind it. -/
theorem Spelled.spaced {spelling : List Char} {value : Rat} (h : Spelled spelling value rest)
    (hrest : Spaced places position rest rest') : Spelled spelling value rest' := by
  cases h with
  | enclosed hcontent hvalue => exact .enclosed hcontent hvalue
  | glued hglued hvalue hfollow =>
    exact .glued (hglued.spaced hrest) hvalue (hrest.head_append (fun c hc => .inl hc) [] hfollow)

end Spaced

end Exponent

/-! ## Lexemes in front of further blanks -/

namespace Lexeme

/-- A lexeme stands at the head of a text as before when blanks are put in behind it, whatever its
gap is then. -/
theorem Taken.spaced {places : Nat → Prop} {position : Nat} {due : Bool} {x : Lexeme}
    {rest rest' gap : List Char} (h : Taken due x rest) (hrest : Spaced places position rest rest')
    (hgap : ∀ c ∈ gap, isBlank c = true) : Taken due ⟨gap, x.spelling, x.symbol⟩ rest' := by
  cases h with
  | operator _ hsymbol => exact .operator hgap hsymbol
  | base _ hvalid hstop =>
    exact .base hgap hvalid (hrest.head_append (fun c hc => by simp [isBaseChar, hc]) [] hstop)
  | exponent _ hread =>
    obtain ⟨-, hspelled⟩ := Exponent.read_eq_ok_iff.1 hread
    exact .exponent hgap (Exponent.read_eq_ok_iff.2 ⟨rfl, hspelled.spaced hrest⟩)

/-- The lexemes of a text with blanks put in, but not inside of a token, are those of the text but
for their gaps. -/
theorem Scanned.exists_spaced {places : Nat → Prop} {position : Nat} {due : Bool}
    {xs : List Lexeme} {tail ds : List Char} (h : Scanned due xs tail)
    (hds : Spaced places position (xs.flatMap source ++ tail) ds)
    (hplaces : ∀ p, places p → ∀ t ∈ Token.locate position xs, ¬(t.start < p ∧ p < t.stop)) :
    ∃ ys tail', ds = ys.flatMap source ++ tail' ∧ Scanned due ys tail' ∧
      ys.map symbol = xs.map symbol := by
  induction h generalizing position ds with
  | nil htail => exact ⟨[], ds, rfl, .nil (hds.forall_isBlank htail), rfl⟩
  | @cons due x xs tail htaken _ ih =>
    have hsource : (x :: xs).flatMap source ++ tail =
        x.gap ++ (x.spelling ++ (xs.flatMap source ++ tail)) := by simp [source]
    rw [hsource] at hds
    obtain ⟨gap, behind, rfl, hgap, hbehind⟩ :=
      hds.exists_gap_append htaken.isBlank_gap htaken.spelling_ne_nil
        fun p hp => hplaces p hp _ (List.mem_cons_self ..)
    obtain ⟨ys, tail', rfl, hys, hsymbols⟩ :=
      ih hbehind fun p hp t ht => hplaces p hp t (List.mem_cons_of_mem _ ht)
    have hfirst := htaken.spaced hbehind hgap
    refine ⟨⟨gap, x.spelling, x.symbol⟩ :: ys, tail', ?_, .cons hfirst hys, ?_⟩
    · simp [source]
    · rw [List.map_cons, List.map_cons, hsymbols]

end Lexeme

namespace Token

/-- Of two different tokens one stops in front of the other. -/
theorem eq_or_stop_le_start {position : Nat} {xs : List Lexeme} {a b : Token}
    (ha : a ∈ locate position xs) (hb : b ∈ locate position xs) :
    a = b ∨ a.stop ≤ b.start ∨ b.stop ≤ a.start := by
  obtain ⟨-, hpairwise⟩ := pairwise_locate position xs
  refine List.Pairwise.forall_of_forall_of_flip
    (R := fun a b => a = b ∨ a.stop ≤ b.start ∨ b.stop ≤ a.start)
    (fun _ _ => .inl rfl) ?_ ?_ ha hb
  · exact hpairwise.imp fun hab => .inr (.inl hab)
  · exact hpairwise.imp fun hab => .inr (.inr hab)

/-- A token starts inside of no token of the text, and the text ends inside of none. -/
theorem not_inside {text : String} {tokens : List Token} (h : scan text = .ok tokens) {p : Nat}
    (hp : p ∈ tokens.map start ∨ p = text.utf8ByteSize) :
    ∀ t ∈ tokens, ¬(t.start < p ∧ p < t.stop) := by
  intro t ht
  obtain ⟨-, part, hslice, -⟩ := exists_slice_of_mem h ht
  rcases hp with hp | rfl
  · obtain ⟨u, hu, rfl⟩ := List.mem_map.1 hp
    obtain ⟨hpos, -⟩ := exists_slice_of_mem h hu
    have hapart : t = u ∨ t.stop ≤ u.start ∨ u.stop ≤ t.start := by
      obtain ⟨xs, tail, -, -, rfl⟩ := scan_eq_ok_iff.1 h
      exact eq_or_stop_le_start ht hu
    rcases hapart with rfl | htu | hut <;> omega
  · have hstop := hslice.stop_le
    omega

/-- A text with blanks put in front of tokens and at its end has lexemes with the same symbols. -/
theorem exists_scan_spaced {text text' : String} {tokens : List Token}
    (h : scan text = .ok tokens)
    (hspaced : Text.Spaced (fun p => p ∈ tokens.map start ∨ p = text.utf8ByteSize) 0
      text.toList text'.toList) :
    ∃ xs ys, Lexeme.scan text = .ok xs ∧ Lexeme.scan text' = .ok ys ∧ locate 0 xs = tokens ∧
      ys.map Lexeme.symbol = xs.map Lexeme.symbol := by
  have hinside := fun p => @not_inside _ _ h p
  obtain ⟨xs, tail, htext, hscanned, rfl⟩ := scan_eq_ok_iff.1 h
  rw [htext] at hspaced
  obtain ⟨ys, tail', htext', hscanned', hsymbols⟩ := hscanned.exists_spaced hspaced hinside
  exact ⟨xs, ys, Lexeme.scanFrom_eq_ok_iff.2 ⟨tail, htext, hscanned⟩,
    Lexeme.scanFrom_eq_ok_iff.2 ⟨tail', htext', hscanned'⟩, rfl, hsymbols⟩

end Token

/-! ## Reading -/

/-- Two results are the same, but for the parts that failures of reading show of a text. -/
inductive SameResult {α : Type} : Except Failure α → Except Failure α → Prop
  /-- The same result. -/
  | ok {a : α} : SameResult (.ok a) (.ok a)
  /-- The same fault of reading. -/
  | error {fragment fragment' : String} {fault : ReadingFault} :
    SameResult (.error (.reading fragment fault)) (.error (.reading fragment' fault))

/-- What is made of the same results is the same. -/
theorem SameResult.map {α β : Type} {x y : Except Failure α} (h : SameResult x y) (f : α → β) :
    SameResult (x.map f) (y.map f) := by
  cases h with
  | ok => exact .ok
  | error => exact .error

namespace Terms

/-- A text is blank exactly when it has no lexemes, if its lexemes are found. -/
theorem all_isBlank_iff_of_scan_eq_ok {text : String} {xs : List Lexeme}
    (h : Lexeme.scan text = .ok xs) : text.toList.all isBlank = true ↔ xs = [] := by
  constructor
  · intro hblank
    exact Except.ok.inj (h.symm.trans (scan_of_all_isBlank hblank))
  · intro hxs
    by_contra hblank
    exact ne_nil_of_scan_eq_ok h hblank hxs

/-- Texts with the same symbols are read alike. -/
theorem sameResult_read {text text' : String} {xs ys : List Lexeme}
    (hxs : Lexeme.scan text = .ok xs) (hys : Lexeme.scan text' = .ok ys)
    (hsymbols : ys.map Lexeme.symbol = xs.map Lexeme.symbol) :
    SameResult (read text) (read text') := by
  have hempty : xs = [] ↔ ys = [] := by
    rw [← List.map_eq_nil_iff (f := Lexeme.symbol), ← hsymbols, List.map_eq_nil_iff]
  have hblank := all_isBlank_iff_of_scan_eq_ok hxs
  have hblank' := all_isBlank_iff_of_scan_eq_ok hys
  unfold read
  by_cases hnil : xs = []
  · rw [if_pos (hblank.2 hnil), if_pos (hblank'.2 (hempty.1 hnil))]
    exact .error
  · rw [if_neg (mt hblank.1 hnil), if_neg (mt hblank'.1 (mt hempty.2 hnil)), hxs, hys]
    simp only [hsymbols]
    cases Grammar.parse (xs.map Lexeme.symbol) with
    | ok ts => exact .ok
    | error step => exact .error

end Terms

/-- A text with blanks put in front of some of its tokens and at its end has tokens with the same
symbols. So it has the same terms, the same expression and the same standard notation, or the same
fault of reading in the place of each of them. -/
theorem spacing_insignificant {text text' : String} {tokens : List Token}
    (h : Token.scan text = .ok tokens)
    (hspaced : Text.Spaced (fun p => p ∈ tokens.map Token.start ∨ p = text.utf8ByteSize) 0
      text.toList text'.toList) :
    (∃ tokens', Token.scan text' = .ok tokens' ∧
      tokens'.map Token.symbol = tokens.map Token.symbol) ∧
    SameResult (Terms.read text) (Terms.read text') ∧
    SameResult (Operand.text text).toExpression (Operand.text text').toExpression ∧
    SameResult (Operand.text text).standard (Operand.text text').standard := by
  obtain ⟨xs, ys, hxs, hys, rfl, hsymbols⟩ := Token.exists_scan_spaced h hspaced
  have hread := Terms.sameResult_read hxs hys hsymbols
  refine ⟨⟨_, Terms.tokenScan_eq_ok_iff.2 ⟨ys, hys, rfl⟩, ?_⟩, hread, hread.map _, hread.map _⟩
  rw [Token.map_symbol_locate, Token.map_symbol_locate, hsymbols]

/-- Blanks in front of the caret, the exponent and the slash behind it, and at the end; one of the
blanks has more than one byte. -/
theorem spacing_insignificant_slash :
    Token.scan "Ω^2/s" = .ok [⟨.base "Ω", 0, 2⟩, ⟨.caret, 2, 3⟩, ⟨.exponent 2, 3, 4⟩,
      ⟨.slash, 4, 5⟩, ⟨.base "s", 5, 6⟩] ∧
    Text.Spaced (fun p => p ∈ [0, 2, 3, 4, 5] ∨ p = 6) 0 "Ω^2/s".toList "Ω ^\u3000 2 /s\n".toList ∧
    SameResult (Terms.read "Ω^2/s") (Terms.read "Ω ^\u3000 2 /s\n") := by
  have hscan : Token.scan "Ω^2/s" = .ok [⟨.base "Ω", 0, 2⟩, ⟨.caret, 2, 3⟩, ⟨.exponent 2, 3, 4⟩,
      ⟨.slash, 4, 5⟩, ⟨.base "s", 5, 6⟩] := by decide +kernel
  have hspaced : Text.Spaced (fun p => p ∈ [0, 2, 3, 4, 5] ∨ p = 6) 0 "Ω^2/s".toList
      "Ω ^\u3000 2 /s\n".toList :=
    .keep (.blank (by decide) (by decide) (.keep (.blank (by decide) (by decide)
      (.blank (by decide) (by decide) (.keep (.blank (by decide) (by decide)
        (.keep (.keep (.blank (by decide) (by decide) .nil)))))))))
  obtain ⟨-, hread, -⟩ := spacing_insignificant hscan hspaced
  exact ⟨hscan, hspaced, hread⟩

/-- A blank inside of an exponent matters: the slash leaves the exponent. -/
example : Terms.read "m^2/3" = .ok [⟨"m", 2/3⟩] ∧
    Terms.read "m^2/ 3" = .ok [⟨"m", 2⟩, ⟨"3", -1⟩] := by
  decide +kernel

end UnitAlgebra
