import UnitAlgebra.Proofs.Exponent
import UnitAlgebra.Proofs.Misstep
import UnitAlgebra.Proofs.Reading

/-!
# Where the tokens of a text stand

A token names the bytes of the text that it takes up. `Text.Slice` says what stands between two byte
positions of a text, both of which have to be ends of characters. The tokens of a text stand in
their order and apart from each other, each of them on a slice that spells its symbol, and between
them there are blanks only (`scan_lossless`).

The lexemes of a text carry their own characters, and `locate` adds up the lengths. So each
statement is about a division of the lexemes into those in front, one or two in the middle and those
behind (`exists_of_locate_eq_append`): the text is divided in the same way, and the positions are
the lengths of its parts. -/

namespace UnitAlgebra

/-! ## Slices of a text -/

namespace Text

/-- The text `part` stands in a text from the byte position `start` up to the byte position
`stop`. -/
def Slice (text : String) (start stop : Nat) (part : String) : Prop :=
  ∃ before after, text = before ++ part ++ after ∧ before.utf8ByteSize = start ∧
    start + part.utf8ByteSize = stop

/-- The length of a list of characters is the size of their text. -/
theorem utf8ByteSize_ofList (cs : List Char) : (String.ofList cs).utf8ByteSize = byteLength cs := by
  induction cs with
  | nil => rfl
  | cons c cs ih =>
    have hcons : String.ofList (c :: cs) = String.singleton c ++ String.ofList cs := by
      rw [String.singleton_eq_ofList, ← String.ofList_append, List.singleton_append]
    rw [hcons, String.utf8ByteSize_append, String.utf8ByteSize_singleton, ih, byteLength]

/-- The length of the characters of a text is the size of the text. -/
theorem byteLength_toList (text : String) : byteLength text.toList = text.utf8ByteSize := by
  rw [← utf8ByteSize_ofList, String.ofList_toList]

/-- A text with at least one character has at least one byte. -/
theorem byteLength_pos {cs : List Char} (h : cs ≠ []) : 0 < byteLength cs := by
  obtain ⟨c, more, rfl⟩ := List.exists_cons_of_ne_nil h
  have hc := c.utf8Size_pos
  rw [byteLength]
  omega

/-- A slice in terms of characters. -/
theorem slice_iff {text : String} {start stop : Nat} {part : String} :
    Slice text start stop part ↔ ∃ before after, text.toList = before ++ (part.toList ++ after) ∧
      byteLength before = start ∧ start + byteLength part.toList = stop := by
  constructor
  · rintro ⟨before, after, rfl, rfl, rfl⟩
    exact ⟨before.toList, after.toList, by simp, byteLength_toList _, by rw [byteLength_toList]⟩
  · rintro ⟨before, after, htext, rfl, rfl⟩
    refine ⟨String.ofList before, String.ofList after, ?_, utf8ByteSize_ofList _, ?_⟩
    · rw [← String.ofList_toList (s := text), htext, String.ofList_append, String.ofList_append,
        String.ofList_toList, String.append_assoc]
    · rw [byteLength_toList]

/-- Characters in the middle of a text are a slice. -/
theorem slice_of_toList_eq {text : String} {before part after : List Char}
    (h : text.toList = before ++ (part ++ after)) :
    Slice text (byteLength before) (byteLength before + byteLength part) (String.ofList part) :=
  slice_iff.2 ⟨before, after, by rw [h, String.toList_ofList], rfl, by rw [String.toList_ofList]⟩

end Text

open UnitAlgebra.Text

/-! ## Lexemes in the middle of a text -/

namespace Lexeme

/-- An operator is neither a base nor an exponent. -/
theorem symbol_of_operator?_eq_some {c : Char} {symbol : Symbol}
    (h : Symbol.operator? c = some symbol) :
    (∀ name, symbol ≠ .base name) ∧ ∀ value, symbol ≠ .exponent value := by
  rcases Symbol.operator?_eq_some_iff.1 h with ⟨-, rfl⟩ | ⟨-, rfl⟩ | ⟨-, rfl⟩ <;> simp

/-- An exponent is what stands where one is due. -/
theorem Taken.due_iff {due : Bool} {x : Lexeme} {rest : List Char} (h : Taken due x rest) :
    due = true ↔ ∃ value, x.symbol = .exponent value := by
  cases h with
  | operator _ hsymbol => simp [(symbol_of_operator?_eq_some hsymbol).2]
  | base => simp
  | exponent => simp

/-- The first lexeme of a text stands at its head, and the others make up the rest. -/
theorem scanned_cons_iff {due : Bool} {x : Lexeme} {xs : List Lexeme} {tail : List Char} :
    Scanned due (x :: xs) tail ↔
      Taken due x (xs.flatMap source ++ tail) ∧ Scanned (x.symbol == .caret) xs tail := by
  constructor
  · intro h
    cases h with
    | cons htaken hrest => exact ⟨htaken, hrest⟩
  · rintro ⟨htaken, hrest⟩
    exact .cons htaken hrest

/-- A lexeme in the middle stands at the head of the rest of the text. -/
theorem Scanned.split {due : Bool} {front back : List Lexeme} {x : Lexeme} {tail : List Char}
    (h : Scanned due (front ++ x :: back) tail) :
    ∃ due', Taken due' x (back.flatMap source ++ tail) ∧
      Scanned (x.symbol == .caret) back tail := by
  induction front generalizing due with
  | nil => exact ⟨due, scanned_cons_iff.1 h⟩
  | cons y front ih => exact ih (scanned_cons_iff.1 h).2

/-- Behind a caret stands an exponent. -/
theorem Scanned.exists_exponent {xs : List Lexeme} {tail : List Char} (h : Scanned true xs tail) :
    ∃ x more value, xs = x :: more ∧ x.symbol = .exponent value := by
  cases h with
  | cons htaken _ =>
    obtain ⟨value, hvalue⟩ := htaken.due_iff.1 rfl
    exact ⟨_, _, value, rfl, hvalue⟩

/-- In front of an exponent stands a caret. -/
theorem Scanned.exists_caret {front back : List Lexeme} {x : Lexeme} {tail : List Char}
    {value : Rat} (h : Scanned false (front ++ x :: back) tail) (hx : x.symbol = .exponent value) :
    ∃ init y, front = init ++ [y] ∧ y.symbol = .caret := by
  rcases List.eq_nil_or_concat front with rfl | ⟨init, y, rfl⟩
  · have hdue := (scanned_cons_iff.1 h).1.due_iff.2 ⟨value, hx⟩
    cases hdue
  · rw [List.concat_eq_append, List.append_assoc, List.singleton_append] at h
    obtain ⟨-, -, hrest⟩ := h.split
    have hcaret := (scanned_cons_iff.1 hrest).1.due_iff.2 ⟨value, hx⟩
    exact ⟨init, y, List.concat_eq_append, by simpa using hcaret⟩

/-- The gap of a lexeme is blank. -/
theorem Taken.isBlank_gap {due : Bool} {x : Lexeme} {rest : List Char} (h : Taken due x rest) :
    ∀ c ∈ x.gap, isBlank c = true := by
  cases h with
  | operator hgap _ => exact hgap
  | base hgap _ _ => exact hgap
  | exponent hgap _ => exact hgap

/-- A lexeme has at least one character. -/
theorem Taken.spelling_ne_nil {due : Bool} {x : Lexeme} {rest : List Char} (h : Taken due x rest) :
    x.spelling ≠ [] :=
  (source_of_first_eq_ok h.first_eq_some).2

/-- Two bases stand apart from each other. -/
theorem Taken.gap_ne_nil {due due' : Bool} {x y : Lexeme} {rest : List Char} {name name' : String}
    (hx : Taken due x (y.source ++ rest)) (hy : Taken due' y rest) (hname : x.symbol = .base name)
    (hname' : y.symbol = .base name') : y.gap ≠ [] := by
  intro hgap
  cases hx with
  | operator _ hsymbol => exact absurd hname ((symbol_of_operator?_eq_some hsymbol).1 name)
  | base _ _ hstop =>
    cases hy with
    | operator _ hsymbol => exact absurd hname' ((symbol_of_operator?_eq_some hsymbol).1 name')
    | @base gap other _ _ hvalid _ =>
      -- the first name would go on with the second
      obtain ⟨c, cs, hother⟩ := List.exists_cons_of_ne_nil hvalid.1
      have hc : isBaseChar c = true := hvalid.2 c (by simp [hother])
      have hhead : isBaseChar c = false := by
        refine hstop c ?_
        simp only at hgap
        simp [source, hgap, hother]
      rw [hc] at hhead
      cases hhead
    | exponent => cases hname'
  | exponent => cases hname

end Lexeme

/-! ## Located lexemes -/

namespace Token

/-- The tokens of further lexemes stand behind the text of those in front. -/
theorem locate_append (position : Nat) (xs ys : List Lexeme) :
    locate position (xs ++ ys) =
      locate position xs ++ locate (position + byteLength (xs.flatMap Lexeme.source)) ys := by
  induction xs generalizing position with
  | nil => rfl
  | cons x xs ih =>
    rw [List.cons_append, locate, locate, ih, List.cons_append, List.flatMap_cons,
      byteLength_append, Lexeme.source, byteLength_append]
    simp only [Nat.add_assoc]

/-- A division of tokens is a division of their lexemes. -/
theorem exists_of_locate_eq_append {position : Nat} {xs : List Lexeme} {front back : List Token}
    (h : locate position xs = front ++ back) :
    ∃ ys zs, xs = ys ++ zs ∧ locate position ys = front ∧
      locate (position + byteLength (ys.flatMap Lexeme.source)) zs = back := by
  induction front generalizing position xs with
  | nil => exact ⟨[], xs, rfl, rfl, h⟩
  | cons t front ih =>
    cases xs with
    | nil => cases h
    | cons x xs =>
      obtain ⟨ht, hrest⟩ := List.cons.inj h
      obtain ⟨ys, zs, rfl, hfront, hback⟩ := ih hrest
      refine ⟨x :: ys, zs, rfl, ?_, ?_⟩
      · rw [locate, hfront, ← ht]
      · rw [← hback, List.flatMap_cons, byteLength_append, Lexeme.source, byteLength_append]
        simp only [Nat.add_assoc]

/-- A token is that of a lexeme, and stands behind the lexemes in front and the gap. -/
theorem exists_of_mem_locate {position : Nat} {xs : List Lexeme} {t : Token}
    (h : t ∈ locate position xs) : ∃ front x back, xs = front ++ x :: back ∧
      t = ⟨x.symbol, position + byteLength (front.flatMap Lexeme.source ++ x.gap),
        position + byteLength (front.flatMap Lexeme.source ++ x.source)⟩ := by
  obtain ⟨before, behind, hsplit⟩ := List.append_of_mem h
  obtain ⟨front, zs, rfl, -, hzs⟩ := exists_of_locate_eq_append hsplit
  cases zs with
  | nil => cases hzs
  | cons x back =>
    obtain ⟨rfl, -⟩ := List.cons.inj hzs
    refine ⟨front, x, back, rfl, ?_⟩
    simp only [Lexeme.source, byteLength_append, Nat.add_assoc]

/-- Tokens stand in their order and apart from each other. -/
theorem pairwise_locate (position : Nat) (xs : List Lexeme) :
    (∀ t ∈ locate position xs, position ≤ t.start) ∧
      (locate position xs).Pairwise fun a b => a.stop ≤ b.start := by
  induction xs generalizing position with
  | nil => simp [locate]
  | cons x xs ih =>
    obtain ⟨hstart, hpairwise⟩ := ih (position + byteLength x.gap + byteLength x.spelling)
    refine ⟨List.forall_mem_cons.2 ⟨?_, fun t ht => ?_⟩, List.pairwise_cons.2 ⟨hstart, hpairwise⟩⟩
    · show position ≤ position + byteLength x.gap
      omega
    · have ht' := hstart t ht
      omega

/-- A character of two texts side by side stands in the one or in the other. -/
theorem append_cons_eq_append {before after as bs : List Char} {c : Char}
    (h : before ++ c :: after = as ++ bs) :
    (∃ more, as = before ++ c :: more) ∨ ∃ more, before = as ++ more ∧ bs = more ++ c :: after := by
  rcases List.append_eq_append_iff.1 h with ⟨more, has, hbs⟩ | ⟨more, hbefore, hbs⟩
  · cases more with
    | nil => exact .inr ⟨[], by simpa using has.symm, by simpa using hbs.symm⟩
    | cons d more =>
      obtain ⟨rfl, -⟩ := List.cons.inj hbs
      exact .inl ⟨more, has⟩
  · exact .inr ⟨more, hbefore, hbs⟩

/-- A character with a byte outside all tokens is a blank. -/
theorem isBlank_of_notMem_locate {due : Bool} {xs : List Lexeme} {tail before after : List Char}
    {c : Char} {position k : Nat} (h : Lexeme.Scanned due xs tail)
    (htext : before ++ c :: after = xs.flatMap Lexeme.source ++ tail)
    (hlow : position + byteLength before ≤ k)
    (hhigh : k < position + byteLength before + c.utf8Size)
    (hout : ∀ t ∈ locate position xs, ¬(t.start ≤ k ∧ k < t.stop)) : isBlank c = true := by
  induction xs generalizing due position before with
  | nil =>
    cases h with
    | nil htail =>
      rw [List.flatMap_nil, List.nil_append] at htext
      exact htail c (htext ▸ by simp)
  | cons x xs ih =>
    obtain ⟨htaken, hrest⟩ := Lexeme.scanned_cons_iff.1 h
    obtain ⟨hx, hxs⟩ := List.forall_mem_cons.1 hout
    rw [List.flatMap_cons, List.append_assoc, Lexeme.source, List.append_assoc] at htext
    rcases append_cons_eq_append htext with ⟨more, hgap⟩ | ⟨within, rfl, hwithin⟩
    · -- in the gap
      exact htaken.isBlank_gap c (hgap ▸ by simp)
    · rw [byteLength_append] at hlow hhigh
      rcases append_cons_eq_append hwithin.symm with ⟨more, hspelling⟩ | ⟨behind, rfl, hbehind⟩
      · -- in the spelling, and so within the token
        refine absurd ⟨?_, ?_⟩ hx
        · show position + byteLength x.gap ≤ k
          omega
        · show k < position + byteLength x.gap + byteLength x.spelling
          rw [hspelling, byteLength_append, byteLength]
          omega
      · -- behind the lexeme
        rw [byteLength_append] at hlow hhigh
        refine ih hrest hbehind.symm ?_ ?_ hxs
        · omega
        · omega

end Token

/-! ## The tokens of a text -/

/-- How a symbol may be written. -/
inductive Symbol.WrittenAs : Symbol → String → Prop
  /-- A base is its name. -/
  | base (name : String) : WrittenAs (.base name) name
  /-- The sign of multiplication. -/
  | star : WrittenAs .star "*"
  /-- The sign of division. -/
  | slash : WrittenAs .slash "/"
  /-- The sign that raises to a power. -/
  | caret : WrittenAs .caret "^"
  /-- An exponent between parentheses has the value of what stands between them. -/
  | enclosed {content : String} {value : Rat} : ')' ∉ content.toList →
    Fraction.read content.toList = some value → WrittenAs (.exponent value) ("(" ++ content ++ ")")
  /-- An exponent without parentheses has the value of its run. -/
  | glued {spelling : String} {rest : List Char} {value : Rat} :
    Exponent.Glued spelling.toList rest → Fraction.read spelling.toList = some value →
      WrittenAs (.exponent value) spelling

/-- A lexeme is written as its spelling. -/
theorem Lexeme.Taken.writtenAs {due : Bool} {x : Lexeme} {rest : List Char} (h : Taken due x rest) :
    x.symbol.WrittenAs (String.ofList x.spelling) := by
  cases h with
  | operator _ hsymbol =>
    rcases Symbol.operator?_eq_some_iff.1 hsymbol with ⟨rfl, rfl⟩ | ⟨rfl, rfl⟩ | ⟨rfl, rfl⟩
    · exact .star
    · exact .slash
    · exact .caret
  | @base _ name _ _ _ _ =>
    rw [String.ofList_toList]
    exact .base name
  | @exponent _ written value _ _ hread =>
    cases (Exponent.read_eq_ok_iff.1 hread).2 with
    | @enclosed content _ _ hcontent hvalue =>
      have henclosed : String.ofList ('(' :: content ++ [')']) =
          "(" ++ String.ofList content ++ ")" := by
        rw [List.cons_append, ← List.singleton_append, String.ofList_append, String.ofList_append,
          String.append_assoc]
      rw [henclosed]
      refine .enclosed ?_ ?_
      · rwa [String.toList_ofList]
      · rw [String.toList_ofList]
        exact Fraction.read_eq_some_iff.2 hvalue
    | glued hglued hvalue _ =>
      have hrun : Exponent.Glued (String.ofList written).toList rest := by
        rwa [String.toList_ofList]
      have hnumber : Fraction.read (String.ofList written).toList = some value := by
        rw [String.toList_ofList]
        exact hglued.read_eq_some_iff.2 hvalue
      exact .glued hrun hnumber

namespace Token

/-- The tokens of a text are its lexemes with their positions. -/
theorem scan_eq_ok_iff {text : String} {tokens : List Token} :
    scan text = .ok tokens ↔ ∃ xs tail, text.toList = xs.flatMap Lexeme.source ++ tail ∧
      Lexeme.Scanned false xs tail ∧ tokens = locate 0 xs := by
  rw [Terms.tokenScan_eq_ok_iff]
  constructor
  · rintro ⟨xs, hscan, rfl⟩
    obtain ⟨tail, htext, hscanned⟩ := Lexeme.scanFrom_eq_ok_iff.1 hscan
    exact ⟨xs, tail, htext, hscanned, rfl⟩
  · rintro ⟨xs, tail, htext, hscanned, rfl⟩
    exact ⟨xs, Lexeme.scanFrom_eq_ok_iff.2 ⟨tail, htext, hscanned⟩, rfl⟩

/-- A token stands on a slice of the text that spells its symbol. -/
theorem exists_slice_of_mem {text : String} {tokens : List Token} (h : scan text = .ok tokens)
    {t : Token} (ht : t ∈ tokens) : t.start < t.stop ∧
      ∃ part, Slice text t.start t.stop part ∧ t.symbol.WrittenAs part := by
  obtain ⟨xs, tail, htext, hscanned, rfl⟩ := scan_eq_ok_iff.1 h
  obtain ⟨front, x, back, rfl, rfl⟩ := exists_of_mem_locate ht
  obtain ⟨due, htaken, -⟩ := hscanned.split
  have hpos := byteLength_pos htaken.spelling_ne_nil
  have hsplit : text.toList = (front.flatMap Lexeme.source ++ x.gap) ++
      (x.spelling ++ (back.flatMap Lexeme.source ++ tail)) := by
    simp [htext, Lexeme.source]
  have hslice := slice_of_toList_eq hsplit
  have hstop : byteLength (front.flatMap Lexeme.source ++ x.source) =
      byteLength (front.flatMap Lexeme.source ++ x.gap) + byteLength x.spelling := by
    rw [Lexeme.source, ← List.append_assoc, byteLength_append]
  simp only [Nat.zero_add, hstop]
  exact ⟨by omega, _, hslice, htaken.writtenAs⟩

/-- Between two neighbouring tokens there are blanks only, and at least one between two bases. -/
theorem exists_gap_between {text : String} {front back : List Token} {a b : Token}
    (h : scan text = .ok (front ++ a :: b :: back)) :
    ∃ gap, Slice text a.stop b.start gap ∧ (∀ c ∈ gap.toList, isBlank c = true) ∧
      ∀ name name', a.symbol = .base name → b.symbol = .base name' → gap ≠ "" := by
  obtain ⟨xs, tail, htext, hscanned, htokens⟩ := scan_eq_ok_iff.1 h
  obtain ⟨ys, zs, rfl, -, hzs⟩ := exists_of_locate_eq_append htokens.symm
  match zs with
  | [] => cases hzs
  | [x] => cases hzs
  | x :: y :: zs =>
    obtain ⟨rfl, hmore⟩ := List.cons.inj hzs
    obtain ⟨rfl, -⟩ := List.cons.inj hmore
    obtain ⟨due, htaken, hrest⟩ := hscanned.split
    obtain ⟨hnext, -⟩ := Lexeme.scanned_cons_iff.1 hrest
    have hsplit : text.toList = (ys.flatMap Lexeme.source ++ x.source) ++
        (y.gap ++ (y.spelling ++ (zs.flatMap Lexeme.source ++ tail))) := by
      simp [htext, Lexeme.source]
    have hslice := slice_of_toList_eq hsplit
    refine ⟨String.ofList y.gap, ?_, ?_, fun name name' hname hname' => ?_⟩
    · simpa only [Nat.zero_add, Lexeme.source, byteLength_append, Nat.add_assoc] using hslice
    · rw [String.toList_ofList]
      exact hnext.isBlank_gap
    · rw [List.flatMap_cons, List.append_assoc] at htaken
      have hgap := htaken.gap_ne_nil hnext hname hname'
      simpa using hgap

/-- An exponent stands behind each caret and nowhere else. -/
theorem caret_iff_exponent {text : String} {front back : List Token} {t : Token}
    (h : scan text = .ok (front ++ t :: back)) :
    (t.symbol = .caret → ∃ u more value, back = u :: more ∧ u.symbol = .exponent value) ∧
    ∀ value, t.symbol = .exponent value → ∃ init u, front = init ++ [u] ∧ u.symbol = .caret := by
  obtain ⟨xs, tail, htext, hscanned, htokens⟩ := scan_eq_ok_iff.1 h
  obtain ⟨ys, zs, rfl, hys, hzs⟩ := exists_of_locate_eq_append htokens.symm
  cases zs with
  | nil => cases hzs
  | cons x zs =>
    obtain ⟨rfl, hback⟩ := List.cons.inj hzs
    refine ⟨fun hcaret => ?_, fun value hvalue => ?_⟩
    · obtain ⟨-, -, hrest⟩ := hscanned.split
      simp only at hcaret
      simp only [hcaret, beq_self_eq_true] at hrest
      obtain ⟨y, more, value, rfl, hy⟩ := hrest.exists_exponent
      exact ⟨_, _, value, hback.symm, hy⟩
    · obtain ⟨init, y, rfl, hy⟩ := hscanned.exists_caret hvalue
      rw [locate_append] at hys
      exact ⟨_, _, hys.symm, hy⟩

/-- An exponent stands behind each caret among the symbols of a text. -/
theorem caretsRaise_of_scan_eq_ok {text : String} {tokens : List Token}
    (h : scan text = .ok tokens) : Grammar.CaretsRaise (tokens.map symbol) := by
  intro front back hsymbols
  obtain ⟨before, _, rfl, -, hbehind⟩ := List.map_eq_append_iff.1 hsymbols
  obtain ⟨t, behind, rfl, ht, rfl⟩ := List.map_eq_cons_iff.1 hbehind
  obtain ⟨u, more, value, rfl, hu⟩ := (caret_iff_exponent h).1 ht
  exact ⟨value, more.map symbol, by rw [List.map_cons, hu]⟩

/-- The tokens of a text stand in their order and apart from each other, each on a slice of at least
one byte that spells its symbol. A character of which a byte lies outside all of them is a blank,
and so is everything between two neighbours; two bases have a blank between them. An exponent stands
behind each caret and nowhere else. -/
theorem scan_lossless {text : String} {tokens : List Token} (h : scan text = .ok tokens) :
    (∀ t ∈ tokens, t.start < t.stop ∧
      ∃ part, Slice text t.start t.stop part ∧ t.symbol.WrittenAs part) ∧
    tokens.Pairwise (fun a b => a.stop ≤ b.start) ∧
    (∀ c start stop k, Slice text start stop (String.singleton c) → start ≤ k → k < stop →
      (∀ t ∈ tokens, ¬(t.start ≤ k ∧ k < t.stop)) → isBlank c = true) ∧
    (∀ front a b back, tokens = front ++ a :: b :: back →
      ∃ gap, Slice text a.stop b.start gap ∧ (∀ c ∈ gap.toList, isBlank c = true) ∧
        ∀ name name', a.symbol = .base name → b.symbol = .base name' → gap ≠ "") ∧
    ∀ front t back, tokens = front ++ t :: back →
      (t.symbol = .caret → ∃ u more value, back = u :: more ∧ u.symbol = .exponent value) ∧
      ∀ value, t.symbol = .exponent value →
        ∃ init u, front = init ++ [u] ∧ u.symbol = .caret := by
  obtain ⟨xs, tail, htext, hscanned, hlocate⟩ := scan_eq_ok_iff.1 h
  refine ⟨fun t ht => exists_slice_of_mem h ht, ?_, fun c start stop k hslice hlow hhigh hout => ?_,
    fun front a b back hsplit => ?_, fun front t back hsplit => ?_⟩
  · rw [hlocate]
    exact (pairwise_locate 0 xs).2
  · obtain ⟨before, after, hchar, rfl, rfl⟩ := slice_iff.1 hslice
    rw [hlocate] at hout
    rw [htext] at hchar
    simp only [String.toList_singleton, List.singleton_append, byteLength, Nat.add_zero]
      at hchar hhigh
    exact isBlank_of_notMem_locate hscanned hchar.symm (by omega) (by omega) hout
  · exact exists_gap_between (hsplit ▸ h)
  · exact caret_iff_exponent (hsplit ▸ h)

/-- The positions count bytes: the text has names and a blank of more than one byte each, and blanks
within its exponent. -/
theorem scan_lossless_wide : ∃ tokens,
    scan "kΩ^( 1/2 )\u00a0µ" = .ok tokens ∧
    tokens = [⟨.base "kΩ", 0, 3⟩, ⟨.caret, 3, 4⟩, ⟨.exponent (1 / 2), 4, 11⟩, ⟨.base "µ", 13, 15⟩] ∧
    tokens.Pairwise fun a b => a.stop ≤ b.start := by
  have hscan : scan "kΩ^( 1/2 )\u00a0µ" = .ok
      [⟨.base "kΩ", 0, 3⟩, ⟨.caret, 3, 4⟩, ⟨.exponent (1 / 2), 4, 11⟩, ⟨.base "µ", 13, 15⟩] := by
    decide +kernel
  exact ⟨_, hscan, rfl, (scan_lossless hscan).2.1⟩

end Token

end UnitAlgebra
