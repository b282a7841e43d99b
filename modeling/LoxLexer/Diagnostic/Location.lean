import LoxLexer.Bytes

/-!
# `LoxLexer.Diagnostic.Location` — the line and column of an offset

Lines are counted from one and end at each newline byte; columns count bytes from zero. An offset past the
end of the text stands for the end, and a newline belongs to the line it ends.
-/

namespace LoxLexer

/-- The place of an offset in its text. -/
structure Location where
  /-- Number of the line, from one. -/
  line : Nat
  /-- Bytes of the line before the offset. -/
  column : Nat
  /-- Offset of the line's first byte. -/
  lineStart : Nat
  /-- The whole line, without its newline. -/
  lineText : Bytes
deriving DecidableEq, Repr

/-- The bytes up to the first newline. -/
def firstLine (text : Bytes) : Bytes := text.takeWhile (· != newline)

/-- The place of an offset: the line that holds it and the column it has there. -/
def Location.ofOffset (source : Bytes) (offset : Nat) : Location :=
  let before := source.take offset
  let column := (firstLine before.reverse).length
  let lineStart := before.length - column
  { line := 1 + before.count newline
    column
    lineStart
    lineText := firstLine (source.drop lineStart) }

end LoxLexer
