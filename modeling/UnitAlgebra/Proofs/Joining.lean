import UnitAlgebra.Proofs.OrderedLaws
import UnitAlgebra.Proofs.Separation

/-!
# Texts side by side

Two texts with a star between them are the text of their product. Their symbols are a product
exactly when both parts are and the second has no slash in front (`product_append_star_iff`): a star
does not occur in a factor, so it cannot end up inside of one. With `Proofs/Separation.lean` this
says when the whole text is read, and to which terms (`read_append_star_eq_ok_iff`). With a slash in
the place of the star the first factor of the second text is turned over (`read_append_slash`), but
then the first text could also go on with an exponent, so this holds in one direction only.
`read_joined` puts both together.
-/

namespace UnitAlgebra

open UnitAlgebra.Text

/-! ## Products -/

namespace Grammar

/-- A factor has no star. -/
theorem Factor.star_notMem {f : List Symbol} {t : Term} (h : Factor f t) : .star ∉ f := by
  cases h <;> simp

/-- A star behind a factor at the head of a list is behind the whole factor. -/
theorem Factor.append_eq_append_star {f rest front back : List Symbol} {t : Term}
    (hf : Factor f t) (h : f ++ rest = front ++ .star :: back) :
    ∃ more, front = f ++ more ∧ rest = more ++ .star :: back := by
  rcases List.append_eq_append_iff.1 h with ⟨more, hfront, hrest⟩ | ⟨more, hfactor, hstar⟩
  · exact ⟨more, hfront, hrest⟩
  · cases more with
    | nil => exact ⟨[], by simpa using hfactor.symm, by simpa using hstar.symm⟩
    | cons s more =>
      -- the star would be one of the symbols of the factor
      obtain ⟨rfl, -⟩ := List.cons.inj hstar
      exact absurd (hfactor ▸ by simp) hf.star_notMem

/-- A product that does not start with a slash is a factor and a continuation. -/
theorem product_plain_iff {symbols : List Symbol} {ts : List Term} :
    Product symbols ts ∧ symbols.head? ≠ some .slash ↔
      ∃ f t rest more, Factor f t ∧ Continuation rest more ∧ symbols = f ++ rest ∧
        ts = t :: more := by
  constructor
  · rintro ⟨hproduct, hhead⟩
    cases hproduct with
    | plain hf hmore => exact ⟨_, _, _, _, hf, hmore, rfl, rfl⟩
    | slash => simp at hhead
  · rintro ⟨f, t, rest, more, hf, hmore, rfl, rfl⟩
    refine ⟨.plain hf hmore, ?_⟩
    cases hf <;> simp

/-- Symbols after a factor go on with further ones. -/
theorem Continuation.append {front back : List Symbol} {ts us : List Term}
    (h : Continuation front ts) (hback : Continuation back us) :
    Continuation (front ++ back) (ts ++ us) := by
  induction h with
  | nil => exact hback
  | star hf _ ih =>
    have hstar := Continuation.star hf ih
    rwa [← List.append_assoc] at hstar
  | slash hf _ ih =>
    have hslash := Continuation.slash hf ih
    rwa [← List.append_assoc] at hslash

/-- A product goes on with the symbols that may stand after a factor. -/
theorem Product.append {front back : List Symbol} {ts us : List Term} (h : Product front ts)
    (hback : Continuation back us) : Product (front ++ back) (ts ++ us) := by
  cases h with
  | plain hf hmore =>
    have hplain := Product.plain hf (hmore.append hback)
    rwa [← List.append_assoc] at hplain
  | slash hf hmore =>
    have hslash := Product.slash hf (hmore.append hback)
    rwa [← List.append_assoc] at hslash

/-- A star among the symbols after a factor stands in front of a product. -/
theorem Continuation.exists_of_append_star {symbols front back : List Symbol} {all : List Term}
    (h : Continuation symbols all) (hsymbols : symbols = front ++ .star :: back) :
    ∃ ts us, Continuation front ts ∧ Product back us ∧ back.head? ≠ some .slash ∧
      all = ts ++ us := by
  induction h generalizing front with
  | nil => simp at hsymbols
  | @star f rest t ts hf hmore ih =>
    cases front with
    | nil =>
      obtain ⟨-, rfl⟩ := List.cons.inj hsymbols
      obtain ⟨hproduct, hhead⟩ := product_plain_iff.2 ⟨f, t, rest, ts, hf, hmore, rfl, rfl⟩
      exact ⟨[], t :: ts, .nil, hproduct, hhead, rfl⟩
    | cons s front =>
      obtain ⟨rfl, htail⟩ := List.cons.inj hsymbols
      obtain ⟨more, rfl, hrest⟩ := hf.append_eq_append_star htail
      obtain ⟨us, vs, hus, hproduct, hhead, rfl⟩ := ih hrest
      exact ⟨t :: us, vs, .star hf hus, hproduct, hhead, rfl⟩
  | @slash f rest t ts hf hmore ih =>
    cases front with
    | nil => cases hsymbols
    | cons s front =>
      obtain ⟨rfl, htail⟩ := List.cons.inj hsymbols
      obtain ⟨more, rfl, hrest⟩ := hf.append_eq_append_star htail
      obtain ⟨us, vs, hus, hproduct, hhead, rfl⟩ := ih hrest
      exact ⟨t.inverse :: us, vs, .slash hf hus, hproduct, hhead, rfl⟩

/-- Symbols with a star among them are a product exactly when what stands in front of the star and
what stands behind it are, and no slash follows the star. -/
theorem product_append_star_iff {front back : List Symbol} {all : List Term} :
    Product (front ++ .star :: back) all ↔
      ∃ ts us, Product front ts ∧ Product back us ∧ back.head? ≠ some .slash ∧ all = ts ++ us := by
  constructor
  · intro h
    generalize hsymbols : front ++ .star :: back = symbols at h
    cases h with
    | plain hf hmore =>
      obtain ⟨more, rfl, hrest⟩ := hf.append_eq_append_star hsymbols.symm
      obtain ⟨us, vs, hus, hproduct, hhead, rfl⟩ := hmore.exists_of_append_star hrest
      exact ⟨_ :: us, vs, .plain hf hus, hproduct, hhead, rfl⟩
    | slash hf hmore =>
      cases front with
      | nil => cases hsymbols
      | cons s front =>
        obtain ⟨rfl, htail⟩ := List.cons.inj hsymbols
        obtain ⟨more, rfl, hrest⟩ := hf.append_eq_append_star htail.symm
        obtain ⟨us, vs, hus, hproduct, hhead, rfl⟩ := hmore.exists_of_append_star hrest
        exact ⟨_ :: us, vs, .slash hf hus, hproduct, hhead, rfl⟩
  · rintro ⟨ts, us, hfront, hback, hhead, rfl⟩
    obtain ⟨f, t, rest, more, hf, hmore, rfl, rfl⟩ := product_plain_iff.1 ⟨hback, hhead⟩
    exact hfront.append (.star hf hmore)

end Grammar

/-! ## Texts -/

namespace Terms

/-- A text starts with a slash but for blanks. -/
def HasLeadingSlash (text : String) : Prop :=
  (trimStart text.toList).head? = some '/'

instance (text : String) : Decidable (HasLeadingSlash text) :=
  inferInstanceAs (Decidable (_ = _))

/-- A text is read exactly when its symbols form a product, whose neutral terms are left out. -/
theorem read_eq_ok_iff_symbols {text : String} {ts : List Term} :
    read text = .ok ts ↔ ∃ symbols all, Lexeme.symbolsFrom false text.toList = .ok symbols ∧
      Grammar.Product symbols all ∧ ts = all.filter fun t => !t.isNeutral := by
  rw [read_eq_ok_iff]
  constructor
  · rintro ⟨xs, all, hscan, hproduct, rfl⟩
    exact ⟨_, all, Lexeme.symbolsFrom_eq_ok_iff.2 ⟨xs, hscan, rfl⟩, hproduct, rfl⟩
  · rintro ⟨symbols, all, hsymbols, hproduct, rfl⟩
    obtain ⟨xs, hscan, rfl⟩ := Lexeme.symbolsFrom_eq_ok_iff.1 hsymbols
    exact ⟨xs, all, hscan, hproduct, rfl⟩

/-- The characters of two texts with an operator and blanks between them. -/
theorem toList_joined (s t : String) :
    (s ++ " * " ++ t).toList = s.toList ++ ' ' :: '*' :: ' ' :: t.toList ∧
    (s ++ " / " ++ t).toList = s.toList ++ ' ' :: '/' :: ' ' :: t.toList ∧
    ("/ " ++ t).toList = '/' :: ' ' :: t.toList := by
  simp [String.toList_append]

/-- Two texts with a star between them are read exactly when both are, and the second has no slash
in front. -/
theorem read_append_star_eq_ok_iff {s t : String} {all : List Term} :
    read (s ++ " * " ++ t) = .ok all ↔ ∃ ts us, read s = .ok ts ∧ read t = .ok us ∧
      ¬HasLeadingSlash t ∧ all = ts ++ us := by
  rw [read_eq_ok_iff_symbols, (toList_joined s t).1]
  constructor
  · rintro ⟨symbols, joined, hsymbols, hproduct, rfl⟩
    obtain ⟨front, back, hfront, hback, rfl⟩ := Lexeme.symbolsFrom_append_star_eq_ok_iff.1 hsymbols
    obtain ⟨ts, us, hts, hus, hhead, rfl⟩ := Grammar.product_append_star_iff.1 hproduct
    refine ⟨_, _, read_eq_ok_iff_symbols.2 ⟨front, ts, hfront, hts, rfl⟩,
      read_eq_ok_iff_symbols.2 ⟨back, us, hback, hus, rfl⟩, ?_, List.filter_append ..⟩
    rwa [HasLeadingSlash, ← Lexeme.head?_symbolsFrom_eq_slash_iff hback]
  · rintro ⟨ts, us, hts, hus, hslash, rfl⟩
    obtain ⟨front, ts, hfront, hproduct, rfl⟩ := read_eq_ok_iff_symbols.1 hts
    obtain ⟨back, us, hback, hproduct', rfl⟩ := read_eq_ok_iff_symbols.1 hus
    rw [HasLeadingSlash, ← Lexeme.head?_symbolsFrom_eq_slash_iff hback] at hslash
    have hsymbols :=
      Lexeme.symbolsFrom_append_star_eq_ok_iff.2 ⟨front, back, hfront, hback, rfl⟩
    have hjoined := Grammar.product_append_star_iff.2 ⟨ts, us, hproduct, hproduct', hslash, rfl⟩
    exact ⟨_, ts ++ us, hsymbols, hjoined, (List.filter_append ..).symm⟩

/-- With a slash between them, two texts are read as with a slash in front of the second, which
turns its first factor over. -/
theorem read_append_slash {s t : String} {ts us : List Term} (hs : read s = .ok ts)
    (ht : read t = .ok us) (hslash : ¬HasLeadingSlash t) :
    ∃ symbols first rest, Lexeme.symbolsFrom false t.toList = .ok symbols ∧
      Grammar.Product symbols (first :: rest) ∧
      us = (first :: rest).filter (fun t => !t.isNeutral) ∧
      read ("/ " ++ t) = .ok ((first.inverse :: rest).filter fun t => !t.isNeutral) ∧
      read (s ++ " / " ++ t) =
        .ok (ts ++ (first.inverse :: rest).filter fun t => !t.isNeutral) := by
  obtain ⟨front, ts, hfront, hproduct, rfl⟩ := read_eq_ok_iff_symbols.1 hs
  obtain ⟨back, us, hback, hproduct', rfl⟩ := read_eq_ok_iff_symbols.1 ht
  rw [HasLeadingSlash, ← Lexeme.head?_symbolsFrom_eq_slash_iff hback] at hslash
  obtain ⟨f, first, symbols, rest, hf, hrest, rfl, rfl⟩ :=
    Grammar.product_plain_iff.1 ⟨hproduct', hslash⟩
  have hoperator : Symbol.operator? '/' = some .slash := rfl
  obtain ⟨-, hjoined, hled⟩ := toList_joined s t
  refine ⟨_, first, rest, hback, hproduct', rfl, ?_, ?_⟩
  · refine read_eq_ok_iff_symbols.2 ⟨_, _, ?_, .slash hf hrest, rfl⟩
    rw [hled, Lexeme.symbolsFrom_operator hoperator (by decide), hback]
    rfl
  · refine read_eq_ok_iff_symbols.2 ⟨_, _, ?_, hproduct.append (.slash hf hrest),
      (List.filter_append ..).symm⟩
    rw [hjoined, Lexeme.symbolsFrom_append_operator hoperator (by decide) hfront, hback]
    rfl

-- a text that is not read may go on behind a slash, here with the rest of an exponent
example : (read "m^(1").toOption = none ∧ read "m^(1 / 2)" = .ok [⟨"m", 1/2⟩] := by
  decide +kernel

end Terms

/-- The product of two texts is the product of their terms, which has the same content whether or
not the first text is brought into canonical form by itself. -/
theorem Operand.exists_product_text {s t : String} {ts us : List Term} (hs : Terms.read s = .ok ts)
    (ht : Terms.read t = .ok us) :
    ∃ p, (Operand.text s).product (.text t) = .ok p ∧ Expression.ofTerms (ts ++ us) == p := by
  refine ⟨.ofTerms (Terms.reduce ts ++ us), ?_, ?_⟩
  · rw [product, toExpression_text_of_read hs]
    exact Expression.multipliedBy_eq_ok ht
  · exact Expression.beq_iff_content.2 (Terms.sorted_reduce_append ts us).symm

open Terms

/-- Two texts with a star between them are read exactly when both are and the second has no slash in
front; the terms are those of the first and then those of the second, and the expression is equal to
the product of the two. With a slash in the place of the star the first factor of the second text is
turned over, unless it is neutral, as it is with a slash in front of this text alone. -/
theorem read_joined (s t : String) :
    (∀ all, read (s ++ " * " ++ t) = .ok all ↔ ∃ ts us, read s = .ok ts ∧ read t = .ok us ∧
      ¬HasLeadingSlash t ∧ all = ts ++ us) ∧
    ∀ ts us, read s = .ok ts → read t = .ok us → ¬HasLeadingSlash t →
      (∃ e p, (Operand.text (s ++ " * " ++ t)).toExpression = .ok e ∧
        (Operand.text s).product (.text t) = .ok p ∧ e == p) ∧
      ∃ tokens first rest inverted, Token.scan t = .ok tokens ∧
        Grammar.Product (tokens.map Token.symbol) (first :: rest) ∧
        us = (first :: rest).filter (fun t => !t.isNeutral) ∧
        read ("/ " ++ t) = .ok inverted ∧ read (s ++ " / " ++ t) = .ok (ts ++ inverted) ∧
        (first.isNeutral = true → inverted = us) ∧
        (first.isNeutral = false → ∃ more, us = first :: more ∧
          inverted = first.inverse :: more) := by
  refine ⟨fun all => read_append_star_eq_ok_iff, fun ts us hs ht hslash => ⟨?_, ?_⟩⟩
  · have hjoined := read_append_star_eq_ok_iff.2 ⟨ts, us, hs, ht, hslash, rfl⟩
    obtain ⟨p, hp, hbeq⟩ := Operand.exists_product_text hs ht
    exact ⟨_, p, Operand.toExpression_text_of_read hjoined, hp, hbeq⟩
  · obtain ⟨symbols, first, rest, hsymbols, hproduct, rfl, hled, hjoined⟩ :=
      read_append_slash hs ht hslash
    obtain ⟨xs, hscan, rfl⟩ := Lexeme.symbolsFrom_eq_ok_iff.1 hsymbols
    rw [← Token.map_symbol_locate 0] at hproduct
    have hinverse : first.inverse.isNeutral = first.isNeutral := rfl
    refine ⟨_, first, rest, _, tokenScan_eq_ok_iff.2 ⟨xs, hscan, rfl⟩, hproduct, rfl, hled, hjoined,
      fun hneutral => ?_, fun hneutral => ⟨rest.filter fun t => !t.isNeutral, ?_, ?_⟩⟩
    · simp [hinverse, hneutral]
    · simp [hneutral]
    · simp [hinverse, hneutral]

/-- A ratio and a product side by side: the star leaves the second text as it is, and the slash
turns over its first factor and no other. -/
theorem read_joined_ratio :
    read "kg / m" = .ok [⟨"kg", 1⟩, ⟨"m", -1⟩] ∧ read "s^2 * A" = .ok [⟨"s", 2⟩, ⟨"A", 1⟩] ∧
    ¬HasLeadingSlash "s^2 * A" ∧
    read "kg / m * s^2 * A" = .ok [⟨"kg", 1⟩, ⟨"m", -1⟩, ⟨"s", 2⟩, ⟨"A", 1⟩] ∧
    read "kg / m / s^2 * A" = .ok [⟨"kg", 1⟩, ⟨"m", -1⟩, ⟨"s", -2⟩, ⟨"A", 1⟩] := by
  have hs : read "kg / m" = .ok [⟨"kg", 1⟩, ⟨"m", -1⟩] := by decide +kernel
  have ht : read "s^2 * A" = .ok [⟨"s", 2⟩, ⟨"A", 1⟩] := by decide +kernel
  have hled : read "/ s^2 * A" = .ok [⟨"s", -2⟩, ⟨"A", 1⟩] := by decide +kernel
  have hslash : ¬HasLeadingSlash "s^2 * A" := by decide +kernel
  obtain ⟨hstar, hboth⟩ := read_joined "kg / m" "s^2 * A"
  obtain ⟨-, -, -, -, inverted, -, -, -, hinverted, hjoined, -⟩ := hboth _ _ hs ht hslash
  obtain rfl : _ = inverted := Except.ok.inj (hled.symm.trans hinverted)
  exact ⟨hs, ht, hslash, (hstar _).2 ⟨_, _, hs, ht, hslash, rfl⟩, hjoined⟩

end UnitAlgebra
