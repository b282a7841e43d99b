import LoxLexer.Bytes
import LoxLexer.Token.Spelling

/-!
# `LoxLexer.Token.Keyword` — the reserved words

A word is reserved by its exact bytes, all of them lower-case letters. `Keyword.ofBytes?` is the inverse
of `Keyword.spelling` (`ofBytes?_eq_some_iff`).
-/

namespace LoxLexer

/-- The reserved words of the language. -/
inductive Keyword where
  | kwAnd
  | kwBool
  | kwClass
  | kwElse
  | kwFalse
  | kwFloat
  | kwFun
  | kwFor
  | kwIf
  | kwInt
  | kwNil
  | kwOr
  | kwPrint
  | kwReturn
  | kwString
  | kwSuper
  | kwThis
  | kwTrue
  | kwVal
  | kwVar
  | kwWhile
deriving DecidableEq, Repr

namespace Keyword

/-- Every reserved word, in the order of the token kinds. -/
def all : List Keyword :=
  [kwAnd, kwBool, kwClass, kwElse, kwFalse, kwFloat, kwFun, kwFor, kwIf, kwInt, kwNil, kwOr, kwPrint,
    kwReturn, kwString, kwSuper, kwThis, kwTrue, kwVal, kwVar, kwWhile]

/-- The bytes of a reserved word. -/
def spelling : Keyword → Bytes
  | kwAnd => ascii "and"
  | kwBool => ascii "bool"
  | kwClass => ascii "class"
  | kwElse => ascii "else"
  | kwFalse => ascii "false"
  | kwFloat => ascii "float"
  | kwFun => ascii "fun"
  | kwFor => ascii "for"
  | kwIf => ascii "if"
  | kwInt => ascii "int"
  | kwNil => ascii "nil"
  | kwOr => ascii "or"
  | kwPrint => ascii "print"
  | kwReturn => ascii "return"
  | kwString => ascii "string"
  | kwSuper => ascii "super"
  | kwThis => ascii "this"
  | kwTrue => ascii "true"
  | kwVal => ascii "val"
  | kwVar => ascii "var"
  | kwWhile => ascii "while"

/-- The text with its first byte, a lower-case letter, made a capital. -/
def capitalized : Bytes → Bytes
  | [] => []
  | b :: rest => (b - 0x20) :: rest

/-- The name in a token dump. -/
def name (k : Keyword) : Bytes := ascii "Kw" ++ capitalized k.spelling

/-- The reserved word with the given bytes. -/
def ofBytes? (word : Bytes) : Option Keyword := lookUp all spelling word

theorem mem_all (k : Keyword) : k ∈ all := by cases k <;> decide

theorem spelling_injective (j k : Keyword) : j.spelling = k.spelling → j = k := by
  cases j <;> cases k <;> decide

/-- A word is read as a keyword exactly when it is the keyword's spelling. -/
theorem ofBytes?_eq_some_iff {word : Bytes} {k : Keyword} :
    ofBytes? word = some k ↔ k.spelling = word :=
  lookUp_eq_some_iff mem_all spelling_injective

end Keyword

end LoxLexer
