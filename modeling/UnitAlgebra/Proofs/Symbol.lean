import UnitAlgebra.Proofs.Position
import UnitAlgebra.Proofs.SingleTerm

/-!
# Symbols and their text

A name that passes the check of a base is scanned as one token that takes up all of it, and nothing
else is (`bases_agree`): the check looks at each character by itself, and the scan goes on as long
as there are base characters, so both accept the texts of base characters.

`renderAll` writes symbols with one space between neighbours. Each symbol ends there: a base and an
exponent do not go on behind a blank, and the slash of a written exponent touches its denominator
(`WellFormed.scanned_lexemes`). So any symbols read back, grammatical or not, as long as they can
stand in a text at all: the bases are valid, and an exponent stands behind each caret and nowhere
else (`renderAll_reads_back`).
-/

namespace UnitAlgebra

open UnitAlgebra.Text

/-! ## Bases -/

namespace Token

/-- A valid base is scanned as one token. -/
theorem scan_of_validBase {base : String} (h : ValidBase base) :
    scan base = .ok [⟨.base base, 0, base.utf8ByteSize⟩] := by
  refine scan_eq_ok_iff.2 ⟨[⟨[], base.toList, .base base⟩], [], by simp [Lexeme.source],
    .cons (.base (by simp) h (by simp)) (.nil (by simp)), ?_⟩
  simp [locate, byteLength, byteLength_toList]

/-- The bases among the symbols of a text are valid. -/
theorem validBase_of_scan_eq_ok {text : String} {tokens : List Token} (h : scan text = .ok tokens)
    {name : String} (hname : .base name ∈ tokens.map symbol) : ValidBase name := by
  obtain ⟨xs, tail, -, hscanned, rfl⟩ := scan_eq_ok_iff.1 h
  rw [map_symbol_locate] at hname
  exact hscanned.validBase hname

end Token

/-- A name passes the check of a base exactly when it is scanned as one base that takes up all of
it, and it is read as the term of this base exactly when it also is not neutral. The bases of any
text pass the check. -/
theorem bases_agree :
    (∀ (base : String) (exponent : Rat), (∃ t, Term.ofBase base exponent = .ok t) ↔
      Token.scan base = .ok [⟨.base base, 0, base.utf8ByteSize⟩]) ∧
    (∀ base : String, Terms.read base = .ok [⟨base, 1⟩] ↔
      (∃ t, Term.unit base = .ok t) ∧ base ≠ "1") ∧
    ∀ (text : String) (tokens : List Token), Token.scan text = .ok tokens →
      ∀ name, .base name ∈ tokens.map Token.symbol → ∃ t, Term.unit name = .ok t := by
  refine ⟨fun base exponent => ?_, fun base => ?_, fun text tokens hscan name hname => ?_⟩
  · rw [Term.ofBase_isOk_iff]
    exact ⟨Token.scan_of_validBase, fun hscan => Token.validBase_of_scan_eq_ok hscan (by simp)⟩
  · rw [Term.unit, Term.ofBase_isOk_iff]
    constructor
    · exact Terms.base_of_read
    · rintro ⟨hvalid, hne⟩
      have hrender : Term.render ⟨base, 1⟩ = base := if_pos rfl
      have hread := @Term.read_render_of_ne ⟨base, 1⟩ hvalid hne
      rwa [hrender] at hread
  · exact Term.ofBase_isOk_iff.2 (Token.validBase_of_scan_eq_ok hscan hname)

/-- A name of characters of more than one byte, with a point, a sign and a digit in it, and the same
name behind an exponent in parentheses. -/
theorem bases_agree_wide :
    Token.scan "Ω·m+2" = .ok [⟨.base "Ω·m+2", 0, 7⟩] ∧ (∃ t, Term.unit "Ω·m+2" = .ok t) ∧
    Terms.read "Ω·m+2" = .ok [⟨"Ω·m+2", 1⟩] ∧
    Token.scan "s^(2)Ω·m+2" =
      .ok [⟨.base "s", 0, 1⟩, ⟨.caret, 1, 2⟩, ⟨.exponent 2, 2, 5⟩, ⟨.base "Ω·m+2", 5, 12⟩] := by
  have hscan : Token.scan "s^(2)Ω·m+2" =
      .ok [⟨.base "s", 0, 1⟩, ⟨.caret, 1, 2⟩, ⟨.exponent 2, 2, 5⟩, ⟨.base "Ω·m+2", 5, 12⟩] := by
    decide +kernel
  obtain ⟨hnames, hterms, htexts⟩ := bases_agree
  have hunit : ∃ t, Term.unit "Ω·m+2" = .ok t := htexts _ _ hscan _ (by simp)
  exact ⟨(hnames _ 1).1 hunit, hunit, (hterms _).2 ⟨hunit, by decide⟩, hscan⟩

/-! ## Symbols side by side -/

namespace Symbol

open UnitAlgebra.Lexeme

/-- Symbols that may stand in a text: the bases are valid, and an exponent stands behind each caret
and nowhere else. -/
structure WellFormed (symbols : List Symbol) : Prop where
  /-- The bases are valid. -/
  validBase : ∀ name, .base name ∈ symbols → ValidBase name
  /-- Behind a caret stands an exponent. -/
  exponent_of_caret : Grammar.CaretsRaise symbols
  /-- In front of an exponent stands a caret. -/
  caret_of_exponent : ∀ front value back, symbols = front ++ .exponent value :: back →
    ∃ init, front = init ++ [.caret]

/-- Symbols may stand in a text without those in front of them, if these do not end with a caret. -/
theorem WellFormed.of_append {front symbols : List Symbol} (h : WellFormed (front ++ symbols))
    (hfront : ∀ init, front ≠ init ++ [.caret]) : WellFormed symbols where
  validBase name hname := h.validBase name (List.mem_append_right front hname)
  exponent_of_caret := h.exponent_of_caret.of_append
  caret_of_exponent init value back hsymbols := by
    obtain ⟨more, hmore⟩ := h.caret_of_exponent (front ++ init) value back
      (by rw [hsymbols, List.append_assoc])
    rcases List.eq_nil_or_concat init with rfl | ⟨init, s, rfl⟩
    · exact absurd (by simpa using hmore) (hfront more)
    · rw [List.concat_eq_append, ← List.append_assoc] at hmore
      obtain ⟨-, hs⟩ := List.append_inj' hmore rfl
      exact ⟨init, by rw [List.concat_eq_append, hs]⟩

/-- Behind a symbol other than a caret, symbols may stand in a text by themselves. -/
theorem WellFormed.tail {s : Symbol} {symbols : List Symbol} (h : WellFormed (s :: symbols))
    (hs : s ≠ .caret) : WellFormed symbols :=
  @WellFormed.of_append [s] symbols h (by simp [List.cons_eq_append_iff, hs.symm])

/-- The lexemes of written symbols: the first one behind a gap, and the others behind a space. -/
def lexemes (gap : List Char) : List Symbol → List Lexeme
  | [] => []
  | s :: symbols => ⟨gap, s.render.toList, s⟩ :: lexemes [' '] symbols

/-- The symbols of the lexemes of symbols are these symbols. -/
theorem map_symbol_lexemes (gap : List Char) (symbols : List Symbol) :
    (lexemes gap symbols).map Lexeme.symbol = symbols := by
  induction symbols generalizing gap with
  | nil => rfl
  | cons s symbols ih => rw [lexemes, List.map_cons, ih]

/-- The lexemes of symbols are their text. -/
theorem source_lexemes (symbols : List Symbol) :
    (lexemes [] symbols).flatMap Lexeme.source = (renderAll symbols).toList := by
  have hspace : " ".toList = [' '] := rfl
  rw [renderAll, String.toList_intercalate, hspace]
  cases symbols with
  | nil => rfl
  | cons s symbols =>
    rw [lexemes, List.flatMap_cons, Lexeme.source, List.nil_append]
    -- behind the first symbol, each one has its space in front
    induction symbols generalizing s with
    | nil => simp [lexemes]
    | cons t symbols ih =>
      rw [lexemes, List.flatMap_cons, Lexeme.source, List.append_assoc, ih t]
      simp

/-- The space between two symbols is blank. -/
theorem isBlank_of_mem_space : ∀ c ∈ [' '], isBlank c = true :=
  List.forall_mem_singleton.2 (by decide)

/-- Behind a symbol the text goes on with a space, if it goes on. -/
theorem isBlank_head_lexemes (symbols : List Symbol) :
    ∀ c ∈ ((lexemes [' '] symbols).flatMap Lexeme.source ++ []).head?, isBlank c = true := by
  cases symbols with
  | nil => simp [lexemes]
  | cons s symbols => simpa [lexemes, Lexeme.source] using isBlank_of_mem_space

/-- Symbols that may stand in a text are scanned as they are written. -/
theorem WellFormed.scanned_lexemes : ∀ {symbols : List Symbol} {gap : List Char},
    WellFormed symbols → (∀ c ∈ gap, isBlank c = true) → Scanned false (lexemes gap symbols) []
  | [], _, _, _ => .nil (by simp)
  | .base name :: symbols, _, h, hgap => by
    have hstop : ∀ c ∈ ((lexemes [' '] symbols).flatMap Lexeme.source ++ []).head?,
        isBaseChar c = false := fun c hc => by simp [isBaseChar, isBlank_head_lexemes symbols c hc]
    have hrest := (h.tail (by simp)).scanned_lexemes isBlank_of_mem_space
    exact .cons (.base hgap (h.validBase name (by simp)) hstop) hrest
  | .star :: _, _, h, hgap =>
    .cons (.operator hgap rfl) ((h.tail (by simp)).scanned_lexemes isBlank_of_mem_space)
  | .slash :: _, _, h, hgap =>
    .cons (.operator hgap rfl) ((h.tail (by simp)).scanned_lexemes isBlank_of_mem_space)
  | .caret :: .exponent value :: symbols, _, h, hgap => by
    have hsymbols : WellFormed symbols :=
      @WellFormed.of_append [.caret, .exponent value] symbols h (by simp [List.cons_eq_append_iff])
    have hread := Exponent.read_spell_append value (isBlank_head_lexemes symbols)
    rw [← Fraction.toList_render] at hread
    exact .cons (.operator hgap rfl) (.cons (.exponent isBlank_of_mem_space hread)
      (hsymbols.scanned_lexemes isBlank_of_mem_space))
  -- what remains has a caret without an exponent, or an exponent without a caret
  | [.caret], _, h, _ | .caret :: .base _ :: _, _, h, _ | .caret :: .star :: _, _, h, _
  | .caret :: .slash :: _, _, h, _ | .caret :: .caret :: _, _, h, _ => by
    obtain ⟨value, more, hmore⟩ := h.exponent_of_caret [] _ rfl
    cases hmore
  | .exponent value :: symbols, _, h, _ => by
    obtain ⟨init, hinit⟩ := h.caret_of_exponent [] value symbols rfl
    simp at hinit

end Symbol

/-- Symbols that may stand in a text are those of the text that is written for them. -/
theorem Token.exists_scan_renderAll {symbols : List Symbol} (h : Symbol.WellFormed symbols) :
    ∃ tokens, scan (Symbol.renderAll symbols) = .ok tokens ∧ tokens.map symbol = symbols := by
  refine ⟨_, scan_eq_ok_iff.2 ⟨Symbol.lexemes [] symbols, [], ?_, h.scanned_lexemes (by simp), rfl⟩,
    ?_⟩
  · rw [Symbol.source_lexemes, List.append_nil]
  · rw [map_symbol_locate, Symbol.map_symbol_lexemes]

/-- The symbols of a text may stand in a text. -/
theorem Token.wellFormed_of_scan_eq_ok {text : String} {tokens : List Token}
    (h : scan text = .ok tokens) : Symbol.WellFormed (tokens.map symbol) where
  validBase _ hname := validBase_of_scan_eq_ok h hname
  exponent_of_caret := caretsRaise_of_scan_eq_ok h
  caret_of_exponent front value back hsymbols := by
    obtain ⟨before, _, rfl, rfl, hbehind⟩ := List.map_eq_append_iff.1 hsymbols
    obtain ⟨t, behind, rfl, ht, rfl⟩ := List.map_eq_cons_iff.1 hbehind
    obtain ⟨init, u, rfl, hu⟩ := (caret_iff_exponent h).2 value ht
    exact ⟨init.map symbol, by simp [hu]⟩

/-- Symbols that may stand in a text, with one space between neighbours, are scanned as these
symbols. The symbols of any text may stand in a text, so they are scanned as these symbols again
when they are written out. -/
theorem renderAll_reads_back :
    (∀ symbols, Symbol.WellFormed symbols →
      ∃ tokens, Token.scan (Symbol.renderAll symbols) = .ok tokens ∧
        tokens.map Token.symbol = symbols) ∧
    ∀ (text : String) (tokens : List Token), Token.scan text = .ok tokens →
      Symbol.WellFormed (tokens.map Token.symbol) ∧
      ∃ again, Token.scan (Symbol.renderAll (tokens.map Token.symbol)) = .ok again ∧
        again.map Token.symbol = tokens.map Token.symbol :=
  ⟨fun _ => Token.exists_scan_renderAll, fun _ _ h =>
    have hwell := Token.wellFormed_of_scan_eq_ok h
    ⟨hwell, Token.exists_scan_renderAll hwell⟩⟩

/-- Symbols outside of the grammar: operators at both ends, two bases side by side, and a negative
fraction in front of a slash and a base that is a digit. -/
theorem renderAll_reads_back_ungrammatical :
    Token.scan "*m 2^(-1.5)/3//" = .ok [⟨.star, 0, 1⟩, ⟨.base "m", 1, 2⟩, ⟨.base "2", 3, 4⟩,
      ⟨.caret, 4, 5⟩, ⟨.exponent (-3/2), 5, 11⟩, ⟨.slash, 11, 12⟩, ⟨.base "3", 12, 13⟩,
      ⟨.slash, 13, 14⟩, ⟨.slash, 14, 15⟩] ∧
    Symbol.WellFormed [.star, .base "m", .base "2", .caret, .exponent (-3/2), .slash, .base "3",
      .slash, .slash] ∧
    ∃ tokens, Token.scan "* m 2 ^ -3/2 / 3 / /" = .ok tokens ∧
      tokens.map Token.symbol = [.star, .base "m", .base "2", .caret, .exponent (-3/2), .slash,
        .base "3", .slash, .slash] := by
  have hscan : Token.scan "*m 2^(-1.5)/3//" = .ok [⟨.star, 0, 1⟩, ⟨.base "m", 1, 2⟩,
      ⟨.base "2", 3, 4⟩, ⟨.caret, 4, 5⟩, ⟨.exponent (-3/2), 5, 11⟩, ⟨.slash, 11, 12⟩,
      ⟨.base "3", 12, 13⟩, ⟨.slash, 13, 14⟩, ⟨.slash, 14, 15⟩] := by decide +kernel
  have hrender : Symbol.renderAll [.star, .base "m", .base "2", .caret, .exponent (-3/2), .slash,
      .base "3", .slash, .slash] = "* m 2 ^ -3/2 / 3 / /" := by decide +kernel
  obtain ⟨hwritten, hscanned⟩ := renderAll_reads_back
  obtain ⟨hwell, -⟩ := hscanned _ _ hscan
  exact ⟨hscan, hwell, hrender ▸ hwritten _ hwell⟩

end UnitAlgebra
