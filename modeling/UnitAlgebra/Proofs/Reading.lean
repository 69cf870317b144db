import UnitAlgebra.Proofs.Grammar
import UnitAlgebra.Proofs.Lexeme
import UnitAlgebra.Terms.Text

/-!
# Reading a text

`read` composes the scan of a text with the parser of its symbols. So a text is read exactly when
its tokens form a product of the grammar, and its terms are those of the product without the neutral
ones (`read_accepts_products`). A text that is not read is a failure of reading, and the bases of
the terms that are read are valid (`validBase_of_mem_read`).
-/

namespace UnitAlgebra.Terms

open UnitAlgebra.Text

/-- A text of blanks has no lexeme. -/
theorem scan_of_all_isBlank {text : String} (h : text.toList.all isBlank = true) :
    Lexeme.scan text = .ok [] := by
  refine Lexeme.scanFrom_of_first_eq_none (Lexeme.first_eq_none_iff.2 ⟨rfl, ?_⟩)
  simpa using h

/-- A product has at least one symbol. -/
theorem product_ne_nil {symbols : List Symbol} {ts : List Term}
    (h : Grammar.Product symbols ts) : symbols ≠ [] := by
  rintro rfl
  have hparse := Grammar.parse_eq_ok_iff.2 h
  cases hparse

/-- A text is read exactly when its lexemes form a product, whose neutral terms are left out. -/
theorem read_eq_ok_iff {text : String} {ts : List Term} :
    read text = .ok ts ↔ ∃ xs all, Lexeme.scan text = .ok xs ∧
      Grammar.Product (xs.map Lexeme.symbol) all ∧ ts = all.filter fun t => !t.isNeutral := by
  unfold read
  constructor
  · intro h
    split at h
    · cases h
    · split at h
      · cases h
      · next xs hscan =>
        split at h
        · next all hparse =>
          cases h
          exact ⟨xs, all, hscan, Grammar.parse_eq_ok_iff.1 hparse, rfl⟩
        · cases h
  · rintro ⟨xs, all, hscan, hproduct, rfl⟩
    -- the check for blanks refuses no product
    have hblank : ¬text.toList.all isBlank = true := by
      intro h
      rw [scan_of_all_isBlank h] at hscan
      cases hscan
      exact product_ne_nil hproduct rfl
    rw [if_neg hblank, hscan]
    simp only [Grammar.parse_eq_ok_iff.2 hproduct]

/-- A text made up of lexemes that form a product is read. -/
theorem read_of_product {text : String} {xs : List Lexeme} {tail : List Char} {all : List Term}
    (htext : text.toList = xs.flatMap Lexeme.source ++ tail)
    (hscanned : Lexeme.Scanned false xs tail)
    (hproduct : Grammar.Product (xs.map Lexeme.symbol) all) :
    read text = .ok (all.filter fun t => !t.isNeutral) := by
  have hscan : Lexeme.scan text = .ok xs := Lexeme.scanFrom_eq_ok_iff.2 ⟨tail, htext, hscanned⟩
  exact read_eq_ok_iff.2 ⟨xs, all, hscan, hproduct, rfl⟩

/-- A text that is not read is a failure of reading. -/
theorem isReading_of_read_eq_error {text : String} {f : Failure} (h : read text = .error f) :
    f.isReading = true := by
  unfold read at h
  split at h
  · cases h
    rfl
  · split at h
    · next hscan =>
      cases h
      exact Lexeme.isReading_of_scanFrom_eq_error hscan
    · split at h
      · cases h
      · cases h
        rfl

/-- Every term that is read has a valid base. -/
theorem validBase_of_mem_read {text : String} {ts : List Term} (h : read text = .ok ts) :
    ∀ t ∈ ts, ValidBase t.base := by
  obtain ⟨xs, all, hscan, hproduct, rfl⟩ := read_eq_ok_iff.1 h
  obtain ⟨tail, -, hscanned⟩ := Lexeme.scanFrom_eq_ok_iff.1 hscan
  intro t ht
  exact hscanned.validBase (hproduct.base_mem t (List.mem_filter.1 ht).1)

/-- The tokens of a text are its lexemes with their positions. -/
theorem tokenScan_eq_ok_iff {text : String} {tokens : List Token} :
    Token.scan text = .ok tokens ↔ ∃ xs, Lexeme.scan text = .ok xs ∧ Token.locate 0 xs = tokens :=
  map_eq_ok_iff

/-- A text is read exactly when it has tokens that form a product, and then its terms are those of
the product in their order, without the neutral ones. Any other text is a failure of reading. -/
theorem read_accepts_products (text : String) :
    (∀ ts, read text = .ok ts ↔
      ∃ tokens all, Token.scan text = .ok tokens ∧ tokens ≠ [] ∧
        Grammar.Product (tokens.map Token.symbol) all ∧ ts = all.filter fun t => !t.isNeutral) ∧
    ((∃ ts, read text = .ok ts) ∨
      ∃ fragment fault, read text = .error (.reading fragment fault)) := by
  refine ⟨fun ts => ?_, ?_⟩
  · rw [read_eq_ok_iff]
    constructor
    · rintro ⟨xs, all, hscan, hproduct, rfl⟩
      rw [← Token.map_symbol_locate 0] at hproduct
      have hne : Token.locate 0 xs ≠ [] := fun h => product_ne_nil hproduct (by rw [h]; rfl)
      exact ⟨_, all, tokenScan_eq_ok_iff.2 ⟨xs, hscan, rfl⟩, hne, hproduct, rfl⟩
    · rintro ⟨tokens, all, hscan, -, hproduct, rfl⟩
      obtain ⟨xs, hxs, rfl⟩ := tokenScan_eq_ok_iff.1 hscan
      rw [Token.map_symbol_locate] at hproduct
      exact ⟨xs, all, hxs, hproduct, rfl⟩
  · match h : read text with
    | .ok ts => exact .inl ⟨ts, rfl⟩
    | .error f =>
      obtain ⟨fragment, fault, rfl⟩ := Failure.isReading_iff.1 (isReading_of_read_eq_error h)
      exact .inr ⟨fragment, fault, rfl⟩

end UnitAlgebra.Terms
