import LoxLexer.Decimal.Numeral
import LoxLexer.Diagnostic.Location
import LoxLexer.Token.Span

/-!
# `LoxLexer.Diagnostic.Block` — an error message with the line it is about

A block quotes the line where a span starts and underlines the part of the span that lies on it:

    Unexpected character '@'.
       |
     3 | var x = @;
       |         ^

The line number stands right-aligned in a gutter two columns wider than itself. A span that goes on past
its first line gets a notice below the carets.
-/

namespace LoxLexer

/-- A text moved to the right end of a field of the given width. -/
def rightAlign (width : Nat) (text : Bytes) : Bytes := spaces (width - text.length) ++ text

/-- The block for a message about a span of the text. -/
def errorBlock (source message : Bytes) (span : Span) : Bytes :=
  let place := Location.ofOffset source span.offset
  let onLine := place.lineText.length - place.column
  let width := Decimal.digitCount place.line + 2
  let gutter := spaces width
  endLine message ++
    endLine (gutter ++ ascii "|") ++
    endLine (rightAlign (width - 1) (Decimal.numeral place.line) ++ ascii " | " ++ place.lineText) ++
    endLine (gutter ++ ascii "| " ++ spaces place.column ++
      List.replicate (min span.length onLine) '^'.toUInt8) ++
    if onLine < span.length then
      endLine (gutter ++ ascii "| --> Error continues in next line.")
    else []

end LoxLexer
