import LoxLexer.Glyph
import LoxLexer.Token.Spelling

/-!
# `LoxLexer.Token.Symbol` — punctuation and operators

Every symbol has one spelling of one or two characters. `Symbol.ofCodes?` finds the symbol that a list of
characters spells; `ofCodes?_eq_some_iff` says that it is the inverse of `Symbol.spelling`.
-/

namespace LoxLexer

/-- The fixed symbols of the language. -/
inductive Symbol where
  | leftParen
  | rightParen
  | leftBrace
  | rightBrace
  | colon
  | comma
  | dot
  | minus
  | plus
  | semicolon
  | slash
  | star
  | bang
  | bangEqual
  | equal
  | equalEqual
  | greater
  | greaterEqual
  | less
  | lessEqual
deriving DecidableEq, Repr

namespace Symbol

/-- Every symbol, in the order of the token kinds. -/
def all : List Symbol :=
  [leftParen, rightParen, leftBrace, rightBrace, colon, comma, dot, minus, plus, semicolon, slash, star,
    bang, bangEqual, equal, equalEqual, greater, greaterEqual, less, lessEqual]

/-- The characters of a symbol. -/
def spelling : Symbol → List Char
  | leftParen => ['(']
  | rightParen => [')']
  | leftBrace => ['{']
  | rightBrace => ['}']
  | colon => [':']
  | comma => [',']
  | dot => ['.']
  | minus => ['-']
  | plus => ['+']
  | semicolon => [';']
  | slash => ['/']
  | star => ['*']
  | bang => ['!']
  | bangEqual => ['!', '=']
  | equal => ['=']
  | equalEqual => ['=', '=']
  | greater => ['>']
  | greaterEqual => ['>', '=']
  | less => ['<']
  | lessEqual => ['<', '=']

/-- The name in a token dump. -/
def name : Symbol → Bytes
  | leftParen => ascii "LParen"
  | rightParen => ascii "RParen"
  | leftBrace => ascii "LCurly"
  | rightBrace => ascii "RCurly"
  | colon => ascii "Colon"
  | comma => ascii "Comma"
  | dot => ascii "Dot"
  | minus => ascii "Minus"
  | plus => ascii "Plus"
  | semicolon => ascii "Semicolon"
  | slash => ascii "Slash"
  | star => ascii "Star"
  | bang => ascii "Bang"
  | bangEqual => ascii "BangEqual"
  | equal => ascii "Equal"
  | equalEqual => ascii "EqualEqual"
  | greater => ascii "Greater"
  | greaterEqual => ascii "GreaterEqual"
  | less => ascii "Less"
  | lessEqual => ascii "LessEqual"

/-- The character numbers of a symbol. -/
def codes (s : Symbol) : List CodePoint := s.spelling.map Char.toNat

/-- The symbol that a list of character numbers spells. -/
def ofCodes? (codes : List CodePoint) : Option Symbol := lookUp all Symbol.codes codes

theorem mem_all (s : Symbol) : s ∈ all := by cases s <;> decide

theorem codes_injective (s t : Symbol) : s.codes = t.codes → s = t := by
  cases s <;> cases t <;> decide

/-- A list of characters is read as a symbol exactly when it is the symbol's spelling. -/
theorem ofCodes?_eq_some_iff {codes : List CodePoint} {s : Symbol} :
    ofCodes? codes = some s ↔ s.codes = codes :=
  lookUp_eq_some_iff mem_all codes_injective

end Symbol

end LoxLexer
