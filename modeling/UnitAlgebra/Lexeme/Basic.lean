import UnitAlgebra.Symbol
import UnitAlgebra.Text.Blank

/-!
# Lexemes and their positions

A lexeme is a symbol with the characters that spell it and the blanks in front of them, so that the
lexemes of a text, one after the other, make up the text up to its last blanks. `Token.locate` turns
lexemes into symbols with byte positions, and `around` gives the part of a text about one of them.
-/

namespace UnitAlgebra

/-- A symbol as it stands in a text. -/
structure Lexeme where
  /-- The blanks in front. -/
  gap : List Char
  /-- The characters that spell the symbol. -/
  spelling : List Char
  /-- The symbol itself. -/
  symbol : Symbol

namespace Lexeme

/-- The characters of the text that a lexeme takes up. -/
def source (x : Lexeme) : List Char :=
  x.gap ++ x.spelling

/-- The text from the start of the lexeme before `index` to the end of the one after it, as far as
there are such lexemes. -/
def around (xs : List Lexeme) (index : Nat) : List Char :=
  match (xs.drop (index - 1)).take (if index = 0 then 2 else 3) with
  | [] => []
  | x :: more => x.spelling ++ more.flatMap source

end Lexeme

/-- A symbol with the byte positions of its spelling in the UTF-8 text. -/
structure Token where
  /-- The symbol. -/
  symbol : Symbol
  /-- The position of the first byte. -/
  start : Nat
  /-- The position after the last byte. -/
  stop : Nat
deriving DecidableEq

/-- The tokens of lexemes that follow each other from a byte position on. -/
def Token.locate (position : Nat) : List Lexeme → List Token
  | [] => []
  | x :: more =>
    let start := position + Text.byteLength x.gap
    let stop := start + Text.byteLength x.spelling
    ⟨x.symbol, start, stop⟩ :: locate stop more

/-- Locating lexemes keeps their symbols. -/
theorem Token.map_symbol_locate (position : Nat) (xs : List Lexeme) :
    (Token.locate position xs).map Token.symbol = xs.map Lexeme.symbol := by
  induction xs generalizing position with
  | nil => rfl
  | cons x xs ih => simp [Token.locate, ih]

end UnitAlgebra
