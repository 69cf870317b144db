import Mathlib.Logic.Relation
import UnitAlgebra.Proofs.Position
import UnitAlgebra.Proofs.Separation

/-!
# Which texts have tokens

A text is read from the left, and what stands between the parentheses of an exponent is passed over.
`Outside` gives the places that are reached in this way. A text has tokens exactly when an exponent
stands behind each caret that is reached, and no parenthesis is reached (`WellSpelled`); the token
of an exponent has the number that is spelled there, and takes up its spelling (`scan_exponents`).

Reading and scanning move on together: the place behind a lexeme is reached from the place in front
of it, and of what is reached on the way only the caret in front of an exponent matters
(`Taken.outside_rest`, `Taken.outside_cases`). The exponent and its caret are two lexemes but one
step of reading, so the place in front of an exponent that is due is that of its caret (`place`). -/

namespace UnitAlgebra

open UnitAlgebra.Text

/-! ## Places outside of parentheses -/

namespace Exponent

/-- A text starts with parentheses, but for blanks, and goes on with `after` behind the first
closing one. -/
inductive Parenthesised : List Char → List Char → Prop
  /-- Whatever stands between the parentheses. -/
  | intro {gap content after : List Char} : (∀ c ∈ gap, isBlank c = true) → ')' ∉ content →
    Parenthesised (gap ++ '(' :: (content ++ ')' :: after)) after

/-- One step of reading. -/
inductive Onward : List Char → List Char → Prop
  /-- A character is passed, if it is not the caret of a parenthesised exponent. -/
  | pass {c : Char} {rest : List Char} : (c = '^' → ∀ after, ¬Parenthesised rest after) →
    Onward (c :: rest) rest
  /-- A parenthesised exponent is passed as a whole. -/
  | skip {rest after : List Char} : Parenthesised rest after → Onward ('^' :: rest) after

/-- What follows a place outside of the parenthesised exponents of a text. -/
def Outside : List Char → List Char → Prop :=
  Relation.ReflTransGen Onward

/-- An exponent at the head of a text, behind a gap. -/
structure Ahead (cs gap spelling : List Char) (value : Rat) (after : List Char) : Prop where
  /-- The text is the gap, the exponent and what follows it. -/
  text_eq : cs = gap ++ (spelling ++ after)
  /-- The gap is blank. -/
  isBlank_gap : ∀ c ∈ gap, isBlank c = true
  /-- The exponent is spelled as it has to be. -/
  spelled : Spelled spelling value after

/-- Outside of parenthesised exponents a text has no parentheses, and no caret without an
exponent. -/
def WellSpelled (cs : List Char) : Prop :=
  ∀ c rest, Outside cs (c :: rest) → c ≠ '(' ∧ c ≠ ')' ∧
    (c = '^' → ∃ gap spelling value after, Ahead rest gap spelling value after)

/-- An exponent stands in a text behind `front`, a caret and a gap, and in front of `after`. -/
structure Written (cs front gap spelling : List Char) (value : Rat) (after : List Char) : Prop where
  /-- The text is divided there. -/
  text_eq : cs = front ++ '^' :: (gap ++ (spelling ++ after))
  /-- The caret does not stand between the parentheses of another exponent. -/
  outside : Outside cs ('^' :: (gap ++ (spelling ++ after)))
  /-- The exponent stands behind the caret. -/
  ahead : Ahead (gap ++ (spelling ++ after)) gap spelling value after

/-- A character that is neither a caret nor a parenthesis. -/
def Ordinary (c : Char) : Prop :=
  c ≠ '^' ∧ c ≠ '(' ∧ c ≠ ')'
deriving Decidable

/-- Blanks are ordinary. -/
theorem ordinary_of_isBlank {c : Char} (h : isBlank c = true) : Ordinary c :=
  ⟨ne_of_class h (by decide), ne_of_class h (by decide), ne_of_class h (by decide)⟩

/-- Base characters are ordinary. -/
theorem ordinary_of_isBaseChar {c : Char} (h : isBaseChar c = true) : Ordinary c :=
  ⟨ne_of_class h (by decide), ne_of_class h (by decide), ne_of_class h (by decide)⟩

/-- A slash is ordinary. -/
theorem ordinary_slash : Ordinary '/' := by
  decide

/-- Parentheses start with the opening one but for blanks, and are closed at the first closing
one. -/
theorem Parenthesised.ends {cs after : List Char} (h : Parenthesised cs after) :
    (cs.dropWhile isBlank).head? = some '(' ∧ (cut ')' (cs.dropWhile isBlank)).2 = some after := by
  obtain @⟨gap, content, _, hgap, hcontent⟩ := h
  have hhead : ∀ c ∈ ('(' :: (content ++ ')' :: after)).head?, isBlank c = false := by
    have hparen : isBlank '(' = false := by decide
    simpa using hparen
  have hinner : ')' ∉ '(' :: content := by simpa using hcontent
  rw [dropWhile_run hgap hhead, ← List.cons_append, cut_append after hinner]
  exact ⟨rfl, rfl⟩

/-- What follows parentheses is determined. -/
theorem Parenthesised.unique {cs after after' : List Char} (h : Parenthesised cs after)
    (h' : Parenthesised cs after') : after = after' :=
  Option.some.inj (h.ends.2.symm.trans h'.ends.2)

/-- A place of a text is the text itself or a place behind the first step. -/
theorem outside_cons_iff {c : Char} {cs place : List Char} :
    Outside (c :: cs) place ↔
      place = c :: cs ∨ ∃ next, Onward (c :: cs) next ∧ Outside next place := by
  rw [Outside, Relation.ReflTransGen.cases_head_iff, eq_comm]

/-- What follows a place is a part of the text. -/
theorem Outside.exists_append {cs place : List Char} (h : Outside cs place) :
    ∃ front, cs = front ++ place := by
  induction h using Relation.ReflTransGen.head_induction_on with
  | refl => exact ⟨[], rfl⟩
  | head hstep _ ih =>
    obtain ⟨front, rfl⟩ := ih
    cases hstep with
    | @pass c _ _ => exact ⟨c :: front, rfl⟩
    | skip hparen =>
      obtain @⟨gap, content, _, _, _⟩ := hparen
      exact ⟨'^' :: (gap ++ '(' :: (content ++ ')' :: front)), by simp⟩

/-- Ordinary characters are passed one by one. -/
theorem outside_run {run : List Char} (hrun : ∀ c ∈ run, Ordinary c) (rest : List Char) :
    Outside (run ++ rest) rest := by
  induction run with
  | nil => exact .refl
  | cons c run ih =>
    obtain ⟨⟨hcaret, -⟩, hmore⟩ := List.forall_mem_cons.1 hrun
    exact .head (.pass fun hc => absurd hc hcaret) (ih hmore)

/-- A place of a text that starts with ordinary characters is in front of one of them or behind
them. -/
theorem outside_run_cases {run : List Char} (hrun : ∀ c ∈ run, Ordinary c)
    {rest more : List Char} {c : Char} (h : Outside (run ++ rest) (c :: more)) :
    Ordinary c ∨ Outside rest (c :: more) := by
  induction run with
  | nil => exact .inr h
  | cons d run ih =>
    obtain ⟨hd, hmore⟩ := List.forall_mem_cons.1 hrun
    rw [List.cons_append] at h
    rcases outside_cons_iff.1 h with heq | ⟨next, hstep, hnext⟩
    · obtain ⟨rfl, -⟩ := List.cons.inj heq
      exact .inl hd
    · cases hstep with
      | pass => exact ih hmore hnext
      | skip => exact absurd rfl hd.1

/-! ## Exponents -/

/-- An exponent at the head of a text is a lexeme where one is due. -/
theorem ahead_iff_taken {cs gap spelling after : List Char} {value : Rat} :
    Ahead cs gap spelling value after ↔
      cs = (⟨gap, spelling, .exponent value⟩ : Lexeme).source ++ after ∧
      Lexeme.Taken true ⟨gap, spelling, .exponent value⟩ after := by
  rw [Lexeme.source, List.append_assoc]
  constructor
  · rintro ⟨rfl, hgap, hspelled⟩
    exact ⟨rfl, .exponent hgap (read_eq_ok_iff.2 ⟨rfl, hspelled⟩)⟩
  · rintro ⟨rfl, htaken⟩
    cases htaken with
    | exponent hgap hread => exact ⟨rfl, hgap, (read_eq_ok_iff.1 hread).2⟩

/-- An exponent ahead stands between parentheses, or consists of ordinary characters. -/
theorem Ahead.parenthesised_or_ordinary {cs gap spelling after : List Char} {value : Rat}
    (h : Ahead cs gap spelling value after) : Parenthesised cs after ∨
      (∀ as, ¬Parenthesised cs as) ∧ ∀ c ∈ gap ++ spelling, Ordinary c := by
  obtain ⟨rfl, hgap, hspelled⟩ := h
  cases hspelled with
  | @enclosed content _ _ hcontent _ =>
    simp only [List.cons_append, List.append_assoc]
    exact .inl (.intro hgap hcontent)
  | glued hglued hvalue _ =>
    have hspelling : ∀ c ∈ spelling, Ordinary c := fun c hc => by
      rcases hglued.class_of_mem hc with hbase | rfl
      · exact ordinary_of_isBaseChar hbase
      · exact ordinary_slash
    refine .inr ⟨fun as hparen => ?_, List.forall_mem_append.2
      ⟨fun c hc => ordinary_of_isBlank (hgap c hc), hspelling⟩⟩
    -- the run is not empty, and starts with neither a blank nor a parenthesis
    obtain ⟨c, more, hc⟩ := List.exists_cons_of_ne_nil hvalue.ends.1
    have hmem : c ∈ spelling := by simp [hc]
    have hblank : ∀ d ∈ (spelling ++ after).head?, isBlank d = false := by
      simpa [hc] using hglued.isBlank_eq_false c hmem
    have hhead := hparen.ends.1
    rw [dropWhile_run hgap hblank, hc] at hhead
    exact (hspelling c hmem).2.1 (Option.some.inj hhead)

/-- Reading passes a caret and its exponent. -/
theorem Ahead.outside {cs gap spelling after : List Char} {value : Rat}
    (h : Ahead cs gap spelling value after) : Outside ('^' :: cs) after := by
  rcases h.parenthesised_or_ordinary with hparen | ⟨hno, hordinary⟩
  · exact .single (.skip hparen)
  · have hpass := outside_run hordinary after
    rw [List.append_assoc, ← h.text_eq] at hpass
    exact .head (.pass fun _ => hno) hpass

/-- A place of a text that starts with a caret and its exponent is that caret, an ordinary character
or behind the exponent. -/
theorem Ahead.outside_cases {cs gap spelling after more : List Char} {value : Rat} {c : Char}
    (h : Ahead cs gap spelling value after) (hplace : Outside ('^' :: cs) (c :: more)) :
    Ordinary c ∨ c :: more = '^' :: cs ∨ Outside after (c :: more) := by
  rcases outside_cons_iff.1 hplace with heq | ⟨next, hstep, hnext⟩
  · exact .inr (.inl heq)
  · rcases h.parenthesised_or_ordinary with hparen | ⟨hno, hordinary⟩
    · cases hstep with
      | pass hpass => exact absurd hparen (hpass rfl after)
      | skip hparen' => exact .inr (.inr (hparen.unique hparen' ▸ hnext))
    · cases hstep with
      | pass =>
        rw [h.text_eq, ← List.append_assoc] at hnext
        exact (outside_run_cases hordinary hnext).imp_right .inr
      | skip hparen => exact absurd hparen (hno next)

end Exponent

/-! ## Lexemes -/

namespace Lexeme

open Exponent

/-- The text in front of which a lexeme stands, with the caret if an exponent is due. -/
def place (due : Bool) (cs : List Char) : List Char :=
  if due then '^' :: cs else cs

/-- The gap of a lexeme is ordinary. -/
theorem Taken.ordinary_gap {due : Bool} {x : Lexeme} {rest : List Char} (h : Taken due x rest) :
    ∀ c ∈ x.gap, Ordinary c :=
  fun c hc => ordinary_of_isBlank (h.isBlank_gap c hc)

/-- A lexeme is a caret, or consists of ordinary characters, or is an exponent where one is due. -/
theorem Taken.shapes {due : Bool} {x : Lexeme} {rest : List Char} (h : Taken due x rest) :
    (due = false ∧ x = ⟨x.gap, ['^'], .caret⟩) ∨
    (due = false ∧ (x.symbol == .caret) = false ∧ ∀ c ∈ x.source, Ordinary c) ∨
    (due = true ∧ (x.symbol == .caret) = false ∧
      ∃ value, Ahead (x.source ++ rest) x.gap x.spelling value rest) := by
  have hgap := h.ordinary_gap
  cases h with
  | operator _ hsymbol =>
    rcases Symbol.operator?_eq_some_iff.1 hsymbol with ⟨rfl, rfl⟩ | ⟨rfl, rfl⟩ | ⟨rfl, rfl⟩
    · exact .inr (.inl ⟨rfl, rfl, List.forall_mem_append.2
        ⟨hgap, List.forall_mem_singleton.2 (by decide)⟩⟩)
    · exact .inr (.inl ⟨rfl, rfl, List.forall_mem_append.2
        ⟨hgap, List.forall_mem_singleton.2 ordinary_slash⟩⟩)
    · exact .inl ⟨rfl, rfl⟩
  | base _ hvalid _ =>
    exact .inr (.inl ⟨rfl, rfl, List.forall_mem_append.2
      ⟨hgap, fun c hc => ordinary_of_isBaseChar (hvalid.2 c hc)⟩⟩)
  | exponent hblank hread =>
    exact .inr (.inr ⟨rfl, rfl, _, ahead_iff_taken.2 ⟨rfl, .exponent hblank hread⟩⟩)

/-- A caret is spelled as one. -/
theorem Taken.eq_caret {due : Bool} {x : Lexeme} {rest : List Char} (h : Taken due x rest)
    (hx : x.symbol = .caret) : x = ⟨x.gap, ['^'], .caret⟩ := by
  rcases h.shapes with ⟨-, hcaret⟩ | ⟨-, hother, -⟩ | ⟨-, hother, -⟩
  · exact hcaret
  · simp [hx] at hother
  · simp [hx] at hother

/-- Reading passes a lexeme, and stops in front of it if it is a caret. -/
theorem Taken.outside_rest {due : Bool} {x : Lexeme} {rest : List Char} (h : Taken due x rest) :
    Outside (place due (x.source ++ rest)) (place (x.symbol == .caret) rest) := by
  rcases h.shapes with ⟨rfl, hx⟩ | ⟨rfl, hx, hordinary⟩ | ⟨rfl, hx, value, hahead⟩
  · have hpass := outside_run h.ordinary_gap ('^' :: rest)
    rw [hx]
    simpa [place, source] using hpass
  · rw [hx]
    exact outside_run hordinary rest
  · rw [hx]
    exact hahead.outside

/-- Up to the end of a lexeme, only ordinary characters are reached, and the caret in front of it if
an exponent is due. -/
theorem Taken.outside_cases {due : Bool} {x : Lexeme} {rest more : List Char} {c : Char}
    (h : Taken due x rest) (hplace : Outside (place due (x.source ++ rest)) (c :: more)) :
    Ordinary c ∨ (due = true ∧ c :: more = '^' :: (x.source ++ rest)) ∨
      Outside (place (x.symbol == .caret) rest) (c :: more) := by
  rcases h.shapes with ⟨rfl, hx⟩ | ⟨rfl, hx, hordinary⟩ | ⟨rfl, hx, value, hahead⟩
  · have hsource : x.source = x.gap ++ ['^'] := by rw [hx, source]
    rw [hsource, List.append_assoc] at hplace
    rw [hx]
    exact (outside_run_cases h.ordinary_gap hplace).imp_right .inr
  · rw [hx]
    exact (outside_run_cases hordinary hplace).imp_right .inr
  · rw [hx]
    rcases hahead.outside_cases hplace with hc | heq | hrest
    · exact .inl hc
    · exact .inr (.inl ⟨rfl, heq⟩)
    · exact .inr (.inr hrest)

/-- A text is well spelled from a lexeme on exactly when it is behind it. -/
theorem Taken.wellSpelled_iff {due : Bool} {x : Lexeme} {rest : List Char} (h : Taken due x rest) :
    WellSpelled (place due (x.source ++ rest)) ↔ WellSpelled (place (x.symbol == .caret) rest) := by
  constructor
  · exact fun hspelled c more hplace => hspelled c more (h.outside_rest.trans hplace)
  · intro hspelled c more hplace
    rcases h.outside_cases hplace with ⟨hcaret, hopen, hclose⟩ | ⟨rfl, heq⟩ | hrest
    · exact ⟨hopen, hclose, fun hc => absurd hc hcaret⟩
    · obtain ⟨rfl, rfl⟩ := List.cons.inj heq
      rcases h.shapes with ⟨hdue, -⟩ | ⟨hdue, -⟩ | ⟨-, -, value, hahead⟩
      · cases hdue
      · cases hdue
      · exact ⟨by decide, by decide, fun _ => ⟨_, _, value, rest, hahead⟩⟩
    · exact hspelled c more hrest

/-- A blank text is well spelled. -/
theorem wellSpelled_of_isBlank {cs : List Char} (h : ∀ c ∈ cs, isBlank c = true) :
    WellSpelled cs := by
  intro c more hplace
  obtain ⟨front, rfl⟩ := hplace.exists_append
  obtain ⟨hcaret, hopen, hclose⟩ := ordinary_of_isBlank (h c (by simp))
  exact ⟨hopen, hclose, fun hc => absurd hc hcaret⟩

/-- What is no blank, no operator and no base character is a parenthesis. -/
theorem parenthesis_of_class {c : Char} (hblank : isBlank c = false)
    (hoperator : Symbol.operator? c = none) (hbase : isBaseChar c = false) : c = '(' ∨ c = ')' := by
  unfold Symbol.operator? at hoperator
  simp only [isBaseChar, hblank, Bool.not_false, Bool.true_and, Bool.not_eq_false'] at hbase
  grind [isReserved]

/-- A well spelled text starts with a lexeme, if it is not blank. -/
theorem first_ne_error {due : Bool} {cs : List Char} (h : WellSpelled (place due cs))
    (f : Failure) : first due cs ≠ .error f := by
  intro hfirst
  cases due with
  | false =>
    obtain ⟨c, rest, hcs, hoperator, hbase, -⟩ := first_false_eq_error_iff.1 hfirst
    have hgap : ∀ d ∈ cs.takeWhile isBlank, Ordinary d :=
      fun d hd => ordinary_of_isBlank (of_mem_takeWhile hd)
    have hhead : c ∈ (cs.dropWhile isBlank).head? := by simp [hcs]
    have hc : isBlank c = false := of_mem_head?_dropWhile hhead
    have hsplit : cs.takeWhile isBlank ++ c :: rest = cs := by
      rw [← hcs, List.takeWhile_append_dropWhile]
    have hplace := outside_run hgap (c :: rest)
    rw [hsplit] at hplace
    obtain ⟨hopen, hclose, -⟩ := h c rest hplace
    exact absurd (parenthesis_of_class hc hoperator hbase) (not_or.2 ⟨hopen, hclose⟩)
  | true =>
    obtain ⟨gap, spelling, value, after, hahead⟩ := (h '^' cs .refl).2.2 rfl
    obtain ⟨hcs, htaken⟩ := ahead_iff_taken.1 hahead
    rw [first_eq_some_iff.2 ⟨hcs, htaken⟩] at hfirst
    cases hfirst

/-- A text has lexemes exactly when it is well spelled. -/
theorem exists_scanFrom_eq_ok_iff {due : Bool} {cs : List Char} :
    (∃ xs, scanFrom due cs = .ok xs) ↔ WellSpelled (place due cs) := by
  constructor
  · rintro ⟨xs, hxs⟩
    obtain ⟨tail, rfl, hscanned⟩ := scanFrom_eq_ok_iff.1 hxs
    clear hxs
    induction hscanned with
    | nil htail => exact wellSpelled_of_isBlank htail
    | cons htaken _ ih =>
      rw [List.flatMap_cons, List.append_assoc]
      exact htaken.wellSpelled_iff.2 ih
  · intro h
    fun_induction scanFrom due cs with
    | case1 due cs f hfirst => exact absurd hfirst (first_ne_error h f)
    | case2 due cs hfirst => exact ⟨[], rfl⟩
    | case3 due cs x rest hfirst f hmore ih =>
      obtain ⟨rfl, htaken⟩ := first_eq_some_iff.1 hfirst
      obtain ⟨xs, hxs⟩ := ih (htaken.wellSpelled_iff.1 h)
      rw [hmore] at hxs
      cases hxs
    | case4 due cs x rest hfirst more hmore ih => exact ⟨_, rfl⟩

/-- What stands at the head of a text is determined. -/
theorem Taken.unique {due : Bool} {x y : Lexeme} {rest rest' : List Char} (hx : Taken due x rest)
    (hy : Taken due y rest') (h : x.source ++ rest = y.source ++ rest') : x = y ∧ rest = rest' := by
  have hfirst := hx.first_eq_some
  rw [h, hy.first_eq_some] at hfirst
  cases hfirst
  exact ⟨rfl, rfl⟩

/-- What stands at the head of a text is its first lexeme. -/
theorem Scanned.eq_cons_of_taken {due : Bool} {xs : List Lexeme} {x : Lexeme}
    {tail rest : List Char} (h : Scanned due xs tail) (hx : Taken due x rest)
    (htext : xs.flatMap source ++ tail = x.source ++ rest) : ∃ ys, xs = x :: ys ∧
      ys.flatMap source ++ tail = rest ∧ Scanned (x.symbol == .caret) ys tail := by
  cases h with
  | nil htail =>
    have hfirst := hx.first_eq_some
    rw [← htext, List.flatMap_nil, List.nil_append, first_eq_none_iff.2 ⟨rfl, htail⟩] at hfirst
    cases hfirst
  | cons hy hmore =>
    rw [List.flatMap_cons, List.append_assoc] at htext
    obtain ⟨rfl, hrest⟩ := hy.unique hx htext
    exact ⟨_, rfl, hrest, hmore⟩

/-- Each caret that is reached is a lexeme, or stands in front of the exponent that is due. -/
theorem Scanned.exists_of_outside_caret {due : Bool} {xs : List Lexeme} {tail rest : List Char}
    (h : Scanned due xs tail)
    (hplace : Outside (place due (xs.flatMap source ++ tail)) ('^' :: rest)) :
    (due = true ∧ rest = xs.flatMap source ++ tail) ∨
      ∃ ys x zs, xs = ys ++ x :: zs ∧ x.symbol = .caret ∧ rest = zs.flatMap source ++ tail := by
  induction h with
  | @nil tail htail =>
    obtain ⟨front, hfront⟩ := hplace.exists_append
    have hmem : '^' ∈ tail := by
      have htext : tail = front ++ '^' :: rest := hfront
      simp [htext]
    exact absurd rfl (ordinary_of_isBlank (htail _ hmem)).1
  | @cons due x xs tail htaken _ ih =>
    rw [List.flatMap_cons, List.append_assoc] at hplace
    rcases htaken.outside_cases hplace with hc | ⟨hdue, heq⟩ | hrest
    · exact absurd rfl hc.1
    · rw [List.flatMap_cons, List.append_assoc]
      exact .inl ⟨hdue, (List.cons.inj heq).2⟩
    · rcases ih hrest with ⟨hcaret, rfl⟩ | ⟨ys, y, zs, rfl, hy, rfl⟩
      · exact .inr ⟨[], x, xs, rfl, by simpa using hcaret, rfl⟩
      · exact .inr ⟨x :: ys, y, zs, rfl, hy, rfl⟩

/-- The place in front of each lexeme is reached. -/
theorem Scanned.outside_of_append {due : Bool} {ys zs : List Lexeme} {tail : List Char}
    (h : Scanned due (ys ++ zs) tail) : ∃ due', Scanned due' zs tail ∧
      Outside (place due ((ys ++ zs).flatMap source ++ tail))
        (place due' (zs.flatMap source ++ tail)) := by
  induction ys generalizing due with
  | nil => exact ⟨due, h, .refl⟩
  | cons y ys ih =>
    obtain ⟨htaken, hmore⟩ := scanned_cons_iff.1 h
    obtain ⟨due', hzs, hplace⟩ := ih hmore
    refine ⟨due', hzs, ?_⟩
    rw [List.cons_append, List.flatMap_cons, List.append_assoc]
    exact htaken.outside_rest.trans hplace

end Lexeme

/-! ## Tokens -/

namespace Token

open Exponent

/-- An exponent that stands in a text has a token of its own behind that of its caret, and so has a
slash behind it. -/
theorem exists_of_written {text : String} {tokens : List Token} (h : scan text = .ok tokens)
    {front gap spelling after : List Char} {value : Rat}
    (hwritten : Written text.toList front gap spelling value after) :
    ∃ before caret exponent behind, tokens = before ++ caret :: exponent :: behind ∧
      caret = ⟨.caret, byteLength front, byteLength front + 1⟩ ∧
      exponent = ⟨.exponent value, caret.stop + byteLength gap,
        caret.stop + byteLength gap + byteLength spelling⟩ ∧
      ∀ blanks more, after = blanks ++ '/' :: more → (∀ c ∈ blanks, isBlank c = true) →
        ∃ others, behind = ⟨.slash, exponent.stop + byteLength blanks,
          exponent.stop + byteLength blanks + 1⟩ :: others := by
  obtain ⟨htext, hplace, hahead⟩ := hwritten
  obtain ⟨xs, tail, hsource, hscanned, rfl⟩ := scan_eq_ok_iff.1 h
  rw [hsource] at hplace
  rcases hscanned.exists_of_outside_caret hplace with ⟨hdue, -⟩ | ⟨ys, x, zs, rfl, hx, hrest⟩
  · cases hdue
  · -- the caret is the lexeme `x`, and the lexemes behind it start with the exponent
    obtain ⟨due, htaken, hzs⟩ := hscanned.split
    have hcaret := htaken.eq_caret hx
    obtain ⟨hcs, hexponent⟩ := ahead_iff_taken.1 hahead
    simp only [hx, beq_self_eq_true] at hzs
    obtain ⟨ws, rfl, hafter, hws⟩ := hzs.eq_cons_of_taken hexponent (hrest.symm.trans hcs)
    have hfront : front = ys.flatMap Lexeme.source ++ x.gap := by
      have hsplit : front ++ '^' :: (gap ++ (spelling ++ after)) =
          (ys.flatMap Lexeme.source ++ x.gap) ++ '^' :: (gap ++ (spelling ++ after)) := by
        rw [← htext, hsource, hcaret, hrest]
        simp [Lexeme.source]
      exact List.append_cancel_right hsplit
    refine ⟨locate 0 ys, _, _,
      locate (byteLength front + 1 + byteLength gap + byteLength spelling) ws, ?_, rfl, rfl, ?_⟩
    · rw [locate_append, hcaret, hfront, byteLength_append, Nat.zero_add]
      rfl
    · intro blanks more hmore hblanks
      have hslash : Lexeme.Taken false ⟨blanks, ['/'], .slash⟩ more := .operator hblanks rfl
      obtain ⟨others, rfl, -⟩ :=
        hws.eq_cons_of_taken hslash (by simp [hafter, hmore, Lexeme.source])
      exact ⟨_, rfl⟩

/-- The token of an exponent takes up an exponent that stands in the text. -/
theorem exists_written_of_mem {text : String} {tokens : List Token} (h : scan text = .ok tokens)
    {t : Token} {value : Rat} (ht : t ∈ tokens) (hvalue : t.symbol = .exponent value) :
    ∃ front gap spelling after, Written text.toList front gap spelling value after ∧
      t.start = byteLength front + 1 + byteLength gap ∧
      t.stop = t.start + byteLength spelling := by
  obtain ⟨xs, tail, htext, hscanned, rfl⟩ := scan_eq_ok_iff.1 h
  obtain ⟨ys, ⟨gap, spelling, symbol⟩, zs, rfl, rfl⟩ := exists_of_mem_locate ht
  obtain rfl : symbol = .exponent value := hvalue
  obtain ⟨due, hzs, hplace⟩ := hscanned.outside_of_append
  -- an exponent is due in front of the lexeme, so the place in front of it is that of a caret
  have htaken := (Lexeme.scanned_cons_iff.1 hzs).1
  obtain rfl : due = true := htaken.due_iff.2 ⟨value, rfl⟩
  have hahead := ahead_iff_taken.2 ⟨rfl, htaken⟩
  have hplace' : Outside text.toList
      ('^' :: (gap ++ (spelling ++ (zs.flatMap Lexeme.source ++ tail)))) := by
    rw [htext]
    simpa [Lexeme.place, Lexeme.source] using hplace
  simp only [Lexeme.source, List.append_assoc] at hahead
  obtain ⟨front, hfront⟩ := hplace'.exists_append
  have hys : ys.flatMap Lexeme.source = front ++ ['^'] := by
    have hsplit : ys.flatMap Lexeme.source ++
        (gap ++ (spelling ++ (zs.flatMap Lexeme.source ++ tail))) =
          (front ++ ['^']) ++ (gap ++ (spelling ++ (zs.flatMap Lexeme.source ++ tail))) := by
      rw [List.append_assoc, List.singleton_append, ← hfront, htext]
      simp [Lexeme.source]
    exact List.append_cancel_right hsplit
  have hlength : byteLength (ys.flatMap Lexeme.source) = byteLength front + 1 := by
    rw [hys, byteLength_append]
    rfl
  refine ⟨front, gap, spelling, _, ⟨hfront, hplace', hahead⟩, ?_, ?_⟩
  · simp only [byteLength_append, hlength, Nat.zero_add]
  · simp only [Lexeme.source, byteLength_append, Nat.zero_add, Nat.add_assoc]

/-- A text has tokens exactly when an exponent stands behind each caret outside of parenthesised
exponents, and no parenthesis does outside of them. An exponent that stands in the text has a token
with its number and its extent behind that of its caret, and a slash behind it has one of its own;
each token of an exponent is of this kind. -/
theorem scan_exponents (text : String) :
    ((∃ tokens, scan text = .ok tokens) ↔ WellSpelled text.toList) ∧
    ∀ tokens, scan text = .ok tokens →
      (∀ front gap spelling value after, Written text.toList front gap spelling value after →
        ∃ before caret exponent behind, tokens = before ++ caret :: exponent :: behind ∧
          caret = ⟨.caret, byteLength front, byteLength front + 1⟩ ∧
          exponent = ⟨.exponent value, caret.stop + byteLength gap,
            caret.stop + byteLength gap + byteLength spelling⟩ ∧
          ∀ blanks more, after = blanks ++ '/' :: more → (∀ c ∈ blanks, isBlank c = true) →
            ∃ others, behind = ⟨.slash, exponent.stop + byteLength blanks,
              exponent.stop + byteLength blanks + 1⟩ :: others) ∧
      ∀ t ∈ tokens, ∀ value, t.symbol = .exponent value →
        ∃ front gap spelling after, Written text.toList front gap spelling value after ∧
          t.start = byteLength front + 1 + byteLength gap ∧
          t.stop = t.start + byteLength spelling := by
  refine ⟨?_, fun tokens h => ⟨fun _ _ _ _ _ hwritten => exists_of_written h hwritten,
    fun t ht value hvalue => exists_written_of_mem h ht hvalue⟩⟩
  have hlexemes : (∃ xs, Lexeme.scanFrom false text.toList = .ok xs) ↔ WellSpelled text.toList :=
    Lexeme.exists_scanFrom_eq_ok_iff
  rw [← hlexemes]
  constructor
  · rintro ⟨tokens, h⟩
    obtain ⟨xs, hxs, -⟩ := Terms.tokenScan_eq_ok_iff.1 h
    exact ⟨xs, hxs⟩
  · rintro ⟨xs, hxs⟩
    exact ⟨_, Terms.tokenScan_eq_ok_iff.2 ⟨xs, hxs, rfl⟩⟩

/-- A slash that a digit touches belongs to the exponent, and the next one does not. The exponent
may not run into a name. -/
theorem scan_exponents_quotient :
    (∃ before others, scan "m^2/3 / s" =
      .ok (before ++ ⟨.caret, 1, 2⟩ :: ⟨.exponent (2 / 3), 2, 5⟩ :: ⟨.slash, 6, 7⟩ :: others)) ∧
    ¬WellSpelled "m^2/3s".toList := by
  have hread : Exponent.read "2/3 / s".toList = .ok ("2/3".toList, 2 / 3, " / s".toList) := by
    decide +kernel
  have hplace : Outside (['m'] ++ "^2/3 / s".toList) "^2/3 / s".toList :=
    outside_run (List.forall_mem_singleton.2 (by decide)) _
  have hwritten : Written "m^2/3 / s".toList ['m'] [] "2/3".toList (2 / 3) " / s".toList :=
    ⟨by decide, hplace, ⟨by decide, by simp, (read_eq_ok_iff.1 hread).2⟩⟩
  have hscan : scan "m^2/3 / s" = .ok [⟨.base "m", 0, 1⟩, ⟨.caret, 1, 2⟩,
      ⟨.exponent (2 / 3), 2, 5⟩, ⟨.slash, 6, 7⟩, ⟨.base "s", 8, 9⟩] := by decide +kernel
  have hno : scan "m^2/3s" = .error (.reading "2/3s" .notNumeric) := by decide +kernel
  constructor
  · obtain ⟨before, _, _, _, hsplit, rfl, rfl, hslash⟩ :=
      ((scan_exponents "m^2/3 / s").2 _ hscan).1 _ _ _ _ _ hwritten
    obtain ⟨others, rfl⟩ :=
      hslash [' '] " s".toList (by decide) (List.forall_mem_singleton.2 (by decide))
    exact ⟨before, others, hsplit ▸ hscan⟩
  · rw [← (scan_exponents "m^2/3s").1, hno]
    simp

end Token

end UnitAlgebra
