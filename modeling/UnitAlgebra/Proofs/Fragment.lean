import UnitAlgebra.Proofs.Acceptance
import UnitAlgebra.Proofs.Misstep

/-!
# The fragment of a failure

A failure of reading shows a part of the text. If the text has no tokens, the part is what the scan
could not take in. If it has tokens but is no product, the part is about the first token with which
the tokens leave the grammar: from the start of the token in front to the end of the one behind, as
far as there are such tokens (`read_fragment`).

`Shown` says of a failure that it shows a part of some characters; a scan shows a part of the rest
of the text, with the caret in front of it if an exponent is due. For the parser the lexemes about
the index are a window on the lexemes of the text, and its slice is found from their lengths
(`slice_of_window`). -/

namespace UnitAlgebra

open UnitAlgebra.Text

/-- A failure shows a part of a text, with at least one character. -/
def Failure.Shown (f : Failure) (cs : List Char) : Prop :=
  ∃ part fault, f = .reading (String.ofList part) fault ∧ part ≠ [] ∧ part <:+: cs

/-- What is shown of a part of a text is shown of the text. -/
theorem Failure.Shown.mono {f : Failure} {cs ds : List Char} (h : f.Shown cs) (hcs : cs <:+: ds) :
    f.Shown ds := by
  obtain ⟨part, fault, rfl, hne, hpart⟩ := h
  exact ⟨part, fault, rfl, hne, hpart.trans hcs⟩

/-! ## Failures of the scan -/

namespace Exponent

/-- A parenthesis that encloses no exponent is shown with what it encloses. -/
theorem shown_of_readEnclosed_eq_error {cs : List Char} {f : Failure}
    (h : readEnclosed cs = .error f) : f.Shown ('(' :: cs) := by
  have hcut := append_cut ')' cs
  unfold readEnclosed at h
  split at h
  · next content hc =>
    cases h
    rw [hc] at hcut
    obtain rfl : cs = content := hcut
    exact ⟨_, _, rfl, by simp, List.infix_rfl⟩
  · next content rest hc =>
    split at h
    · cases h
    · cases h
      rw [hc] at hcut
      refine ⟨_, _, rfl, by simp, [], rest, ?_⟩
      simp [hcut]

/-- A run that is no exponent is shown, with the character behind it if that one is at fault. -/
theorem shown_of_readGlued_eq_error {cs : List Char} {f : Failure} (hne : cs ≠ [])
    (h : readGlued cs = .error f) : f.Shown cs := by
  have happend := gluedSpelling_append_afterGlued cs
  unfold readGlued at h
  simp only at h
  split at h
  · cases h
    exact ⟨_, _, rfl, by simpa using hne, (List.take_prefix 1 cs).isInfix⟩
  · next hspelling =>
    rw [List.isEmpty_iff] at hspelling
    split at h
    · split at h
      · cases h
      · cases h
        refine ⟨_, _, rfl, by simp [hspelling], [], (afterGlued cs).drop 1, ?_⟩
        rw [List.nil_append, List.append_assoc, List.take_append_drop, happend]
    · cases h
      exact ⟨_, _, rfl, hspelling, [], afterGlued cs, happend⟩

/-- A text that starts with no exponent is shown in part. -/
theorem shown_of_read_eq_error {cs : List Char} {f : Failure} (hne : cs ≠ [])
    (h : read cs = .error f) : f.Shown cs := by
  unfold read at h
  split at h
  · exact shown_of_readEnclosed_eq_error h
  · exact shown_of_readGlued_eq_error hne h

end Exponent

namespace Lexeme

/-- A text that starts with no lexeme is shown in part. -/
theorem shown_of_first_eq_error {due : Bool} {cs : List Char} {f : Failure}
    (h : first due cs = .error f) : f.Shown (place due cs) := by
  have hsplit : cs.takeWhile isBlank ++ cs.dropWhile isBlank = cs :=
    List.takeWhile_append_dropWhile
  cases due with
  | false =>
    obtain ⟨c, rest, hcs, -, -, rfl⟩ := first_false_eq_error_iff.1 h
    refine ⟨[c], _, by rw [String.singleton_eq_ofList], by simp, cs.takeWhile isBlank, rest, ?_⟩
    rw [List.append_assoc, List.singleton_append, ← hcs, hsplit]
    rfl
  | true =>
    simp only [first, if_true, firstExponent] at h
    split at h
    · next hempty =>
      cases h
      rw [List.isEmpty_iff] at hempty
      rw [hempty, List.append_nil] at hsplit
      refine ⟨_, _, rfl, by simp, ?_⟩
      rw [hsplit]
      exact List.infix_rfl
    · next hne =>
      rw [List.isEmpty_iff] at hne
      split at h
      · cases h
      · next hread =>
        cases h
        have hsuffix : cs.dropWhile isBlank <:+ place true cs :=
          (List.dropWhile_suffix isBlank).trans (List.suffix_cons '^' cs)
        exact (Exponent.shown_of_read_eq_error hne hread).mono hsuffix.isInfix

/-- A text without lexemes is shown in part. -/
theorem shown_of_scanFrom_eq_error {due : Bool} {cs : List Char} {f : Failure}
    (h : scanFrom due cs = .error f) : f.Shown (place due cs) := by
  fun_induction scanFrom due cs with
  | case1 due cs g hfirst =>
    cases h
    exact shown_of_first_eq_error hfirst
  | case2 due cs hfirst => cases h
  | case3 due cs x rest hfirst g hmore ih =>
    cases h
    obtain ⟨rfl, htaken⟩ := first_eq_some_iff.1 hfirst
    obtain ⟨front, hfront⟩ := htaken.outside_rest.exists_append
    exact (ih hmore).mono ⟨front, [], by rw [hfront, List.append_nil]⟩
  | case4 due cs x rest hfirst more hmore ih => cases h

end Lexeme

/-! ## Failures of the parser -/

namespace Lexeme

/-- The lexemes about one of them: the one in front of it and the one behind it, as far as there are
such lexemes. -/
theorem exists_window {xs : List Lexeme} {i : Nat} (h : i < xs.length) :
    ∃ front x more back, xs = front ++ ((x :: more) ++ back) ∧ front.length = i - 1 ∧
      around xs i = x.spelling ++ more.flatMap source ∧
      (front.length + more.length = i + 1 ∨
        (front.length + more.length = i ∧ i + 1 = xs.length)) := by
  have hsplit : xs.take (i - 1) ++ ((xs.drop (i - 1)).take (if i = 0 then 2 else 3) ++
      (xs.drop (i - 1)).drop (if i = 0 then 2 else 3)) = xs := by
    rw [List.take_append_drop, List.take_append_drop]
  have hlength : ((xs.drop (i - 1)).take (if i = 0 then 2 else 3)).length =
      min (if i = 0 then 2 else 3) (xs.length - (i - 1)) := by
    rw [List.length_take, List.length_drop]
  unfold around
  split
  · next hnil =>
    rw [hnil, List.length_nil] at hlength
    split at hlength <;> omega
  · next x more hwindow =>
    rw [hwindow] at hsplit hlength
    rw [List.length_cons] at hlength
    refine ⟨_, x, more, _, hsplit.symm, ?_, rfl, ?_⟩
    · rw [List.length_take]
      omega
    · rw [List.length_take]
      split at hlength <;> omega

end Lexeme

namespace Token

/-- Each lexeme has a token. -/
theorem length_locate (position : Nat) (xs : List Lexeme) :
    (locate position xs).length = xs.length := by
  rw [← List.length_map (f := symbol), map_symbol_locate, List.length_map]

/-- The token of a lexeme starts behind the lexemes in front and the gap, and stops behind the
lexeme. -/
theorem getElem?_locate (position : Nat) (front : List Lexeme) (x : Lexeme) (back : List Lexeme) :
    (locate position (front ++ x :: back))[front.length]? =
      some ⟨x.symbol, position + byteLength (front.flatMap Lexeme.source ++ x.gap),
        position + byteLength (front.flatMap Lexeme.source ++ x.source)⟩ := by
  rw [locate_append, List.getElem?_append_right (by rw [length_locate]), length_locate,
    Nat.sub_self]
  simp only [locate, List.getElem?_cons_zero, Lexeme.source, byteLength_append, Nat.add_assoc]

/-- A window on the lexemes of a text shows the slice from its first token to its last one. -/
theorem slice_of_window {text : String} {front more back : List Lexeme} {x : Lexeme}
    {tail : List Char}
    (htext : text.toList = (front ++ ((x :: more) ++ back)).flatMap Lexeme.source ++ tail) :
    ∃ first last, (locate 0 (front ++ ((x :: more) ++ back)))[front.length]? = some first ∧
      (locate 0 (front ++ ((x :: more) ++ back)))[front.length + more.length]? = some last ∧
      Slice text first.start last.stop
        (String.ofList (x.spelling ++ more.flatMap Lexeme.source)) := by
  -- the window from its two ends: `x` gives the start of the slice and `y` its stop
  obtain ⟨init, y, hlast⟩ := (List.eq_nil_or_concat (x :: more)).resolve_left (by simp)
  rw [List.concat_eq_append] at hlast
  have hflat : x.source ++ more.flatMap Lexeme.source =
      init.flatMap Lexeme.source ++ y.source := by
    have h := congrArg (List.flatMap Lexeme.source) hlast
    simpa using h
  have hlength : more.length = init.length := by simpa using congrArg List.length hlast
  have hfirst := getElem?_locate 0 front x (more ++ back)
  have hstop := getElem?_locate 0 (front ++ init) y back
  have hsplit : front ++ ((x :: more) ++ back) = (front ++ init) ++ y :: back := by simp [hlast]
  refine ⟨_, _, hfirst, by rw [hsplit, hlength, ← List.length_append, hstop], ?_⟩
  have htext' : text.toList = (front.flatMap Lexeme.source ++ x.gap) ++
      ((x.spelling ++ more.flatMap Lexeme.source) ++ (back.flatMap Lexeme.source ++ tail)) := by
    simp [htext, Lexeme.source]
  have hslice := slice_of_toList_eq htext'
  have hpart : byteLength ((front ++ init).flatMap Lexeme.source ++ y.source) =
      byteLength (front.flatMap Lexeme.source ++ x.gap) +
        byteLength (x.spelling ++ more.flatMap Lexeme.source) := by
    rw [List.flatMap_append, List.append_assoc, ← hflat, ← byteLength_append]
    simp [Lexeme.source]
  simpa only [Nat.zero_add, hpart] using hslice

end Token

/-! ## Reading -/

namespace Terms

/-- A part of a text is a slice of it. -/
theorem exists_slice_of_shown {text : String} {f : Failure} (h : f.Shown text.toList) :
    ∃ fragment fault, f = .reading fragment fault ∧ (∃ start stop, Slice text start stop fragment) ∧
      fragment ≠ "" := by
  obtain ⟨part, fault, rfl, hne, before, after, htext⟩ := h
  rw [List.append_assoc] at htext
  exact ⟨_, fault, rfl, ⟨_, _, slice_of_toList_eq htext.symm⟩, by simpa using hne⟩

/-- The part of a text about the token at an index. -/
theorem slice_around {text : String} {xs : List Lexeme} (h : Lexeme.scan text = .ok xs) {i : Nat}
    (hi : i < xs.length) : Lexeme.around xs i ≠ [] ∧
      ∃ first last, (Token.locate 0 xs)[i - 1]? = some first ∧
        (Token.locate 0 xs)[i + 1]?.or (Token.locate 0 xs)[i]? = some last ∧
        Slice text first.start last.stop (String.ofList (Lexeme.around xs i)) := by
  obtain ⟨tail, htext, hscanned⟩ := Lexeme.scanFrom_eq_ok_iff.1 h
  obtain ⟨front, x, more, back, rfl, hfront, haround, hstop⟩ := Lexeme.exists_window hi
  obtain ⟨first, last, hfirst, hlast, hslice⟩ := Token.slice_of_window htext
  obtain ⟨_, htaken, -⟩ := hscanned.split
  rw [haround]
  refine ⟨by simp [htaken.spelling_ne_nil], first, last, hfront ▸ hfirst, ?_, hslice⟩
  rcases hstop with hstop | ⟨hstop, hend⟩
  · rw [← hstop, hlast, Option.some_or]
  · have hnone : (Token.locate 0 (front ++ ((x :: more) ++ back)))[i + 1]? = none := by
      rw [List.getElem?_eq_none_iff, Token.length_locate, hend]
    rw [hnone, Option.none_or, ← hstop, hlast]

/-- A text that is not blank has a lexeme, if its lexemes are found. -/
theorem ne_nil_of_scan_eq_ok {text : String} {xs : List Lexeme} (h : Lexeme.scan text = .ok xs)
    (hblank : ¬text.toList.all isBlank = true) : xs ≠ [] := by
  rintro rfl
  obtain ⟨tail, htext, hscanned⟩ := Lexeme.scanFrom_eq_ok_iff.1 h
  cases hscanned with
  | nil htail =>
    refine hblank (List.all_eq_true.2 ?_)
    rwa [htext]

/-- A text that is not read is shown in part, and the part is not empty unless the text is. If the
text has tokens and is not blank, the part is about the first token with which the tokens go on to
no product, or about the last token if all of them do: it goes from the start of the token in front
to the end of the one behind, as far as there are such tokens. -/
theorem read_fragment {text : String} {f : Failure} (h : read text = .error f) :
    ∃ fragment fault, f = .reading fragment fault ∧
      (∃ start stop, Slice text start stop fragment) ∧ (text ≠ "" → fragment ≠ "") ∧
      ∀ tokens, text.toList.all isBlank = false → Token.scan text = .ok tokens →
        ∃ i, (∀ k, Grammar.FaultAt (tokens.map Token.symbol) k ↔ k = i) ∧
          ∃ first last, tokens[i - 1]? = some first ∧ tokens[i + 1]?.or tokens[i]? = some last ∧
            Slice text first.start last.stop fragment := by
  unfold read at h
  split at h
  · next hblank =>
    cases h
    refine ⟨text, .blank, rfl, ⟨0, text.utf8ByteSize, "", "", by simp⟩, id, fun _ hno => ?_⟩
    rw [hblank] at hno
    cases hno
  · next hblank =>
    split at h
    · next hscan =>
      cases h
      obtain ⟨fragment, fault, rfl, hslice, hne⟩ :=
        exists_slice_of_shown (Lexeme.shown_of_scanFrom_eq_error hscan)
      refine ⟨fragment, fault, rfl, hslice, fun _ => hne, fun tokens _ htokens => ?_⟩
      obtain ⟨xs, hxs, -⟩ := tokenScan_eq_ok_iff.1 htokens
      rw [hscan] at hxs
      cases hxs
    · next xs hscan =>
      split at h
      · cases h
      · next step hparse =>
        cases h
        have hsymbols : xs.map Lexeme.symbol ≠ [] := by
          simpa using ne_nil_of_scan_eq_ok hscan hblank
        have hcarets : Grammar.CaretsRaise (xs.map Lexeme.symbol) := by
          rw [← Token.map_symbol_locate 0]
          exact Token.caretsRaise_of_scan_eq_ok (tokenScan_eq_ok_iff.2 ⟨xs, hscan, rfl⟩)
        have hfault := Grammar.faultAt_of_parse_eq_error hparse hcarets hsymbols
        have hindex : step.index < xs.length := by simpa using hfault.lt_length
        obtain ⟨haround, first, last, hfirst, hlast, hslice⟩ := slice_around hscan hindex
        refine ⟨_, step.fault, rfl, ⟨_, _, hslice⟩, fun _ => by simpa using haround,
          fun tokens _ htokens => ?_⟩
        obtain ⟨ys, hys, rfl⟩ := tokenScan_eq_ok_iff.1 htokens
        obtain rfl : xs = ys := Except.ok.inj (hscan.symm.trans hys)
        rw [Token.map_symbol_locate]
        refine ⟨step.index, fun k => ⟨fun hk => hk.unique hfault, ?_⟩, first, last, hfirst, hlast,
          hslice⟩
        rintro rfl
        exact hfault

/-- The second exponent of a factor is shown with the first one, since its caret is at fault. -/
theorem read_fragment_repeated : ∃ tokens, Token.scan "Ω^2^3 * m" = .ok tokens ∧
    Grammar.FaultAt (tokens.map Token.symbol) 3 ∧ Slice "Ω^2^3 * m" 3 6 "2^3" := by
  have hread : read "Ω^2^3 * m" = .error (.reading "2^3" .repeatedExponent) := by decide +kernel
  have hblank : "Ω^2^3 * m".toList.all isBlank = false := by decide
  have hscan : Token.scan "Ω^2^3 * m" = .ok [⟨.base "Ω", 0, 2⟩, ⟨.caret, 2, 3⟩, ⟨.exponent 2, 3, 4⟩,
      ⟨.caret, 4, 5⟩, ⟨.exponent 3, 5, 6⟩, ⟨.star, 7, 8⟩, ⟨.base "m", 9, 10⟩] := by decide +kernel
  obtain ⟨fragment, fault, hfragment, -, -, hshown⟩ := read_fragment hread
  obtain ⟨rfl, rfl⟩ := Failure.reading.inj hfragment
  obtain ⟨i, hi, first, last, hfirst, hlast, hslice⟩ := hshown _ hblank hscan
  have hparse : Grammar.parse
      [.base "Ω", .caret, .exponent 2, .caret, .exponent 3, .star, .base "m"] =
        .error ⟨3, .repeatedExponent⟩ := by decide
  have hcarets := Token.caretsRaise_of_scan_eq_ok hscan
  have hfault := Grammar.faultAt_of_parse_eq_error hparse hcarets (by simp)
  obtain rfl : 3 = i := (hi 3).1 hfault
  cases hfirst
  cases hlast
  exact ⟨_, hscan, hfault, hslice⟩

end Terms

end UnitAlgebra
