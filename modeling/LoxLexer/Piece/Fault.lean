import LoxLexer.Bytes
import LoxLexer.Token.Span

/-!
# `LoxLexer.Piece.Fault` — what can be wrong with a piece of text

A fault is a cause; its wording is in `Fault.message` alone. A `LexicalError` is a fault with the place
of the piece it was found in.
-/

namespace LoxLexer

/-- Why a piece of text is no token. -/
inductive Fault where
  /-- No piece starts with this character. -/
  | unexpectedCharacter (character : Bytes)
  | unterminatedString
  | unterminatedComment
  /-- An integer too large, or with digits in a longer spelling. -/
  | unreadableInteger (lexeme : Bytes)
  /-- A decimal too large, or with digits or a point in a longer spelling. -/
  | unreadableFloat (lexeme : Bytes)
deriving DecidableEq, Repr

/-- The wording of a fault. -/
def Fault.message : Fault → Bytes
  | .unexpectedCharacter character => ascii "Unexpected character '" ++ character ++ ascii "'."
  | .unterminatedString => ascii "Unterminated string."
  | .unterminatedComment => ascii "Unterminated multiline comment."
  | .unreadableInteger lexeme => ascii "Cannot parse integer " ++ lexeme
  | .unreadableFloat lexeme => ascii "Cannot parse float " ++ lexeme

/-- A fault and the place of the piece it was found in. -/
structure LexicalError where
  fault : Fault
  span : Span
deriving DecidableEq, Repr

/-- The wording of an error. -/
def LexicalError.message (e : LexicalError) : Bytes := e.fault.message

end LoxLexer
