/-!
# `LoxLexer.Token.Span` — regions of a text

A span is an offset and a length in bytes. It need not lie inside any particular text. Both fields fit a
64-bit machine word, and so does the end: `stop` is computed modulo 2^64.
-/

namespace LoxLexer

/-- A region of a text, in bytes. -/
structure Span where
  offset : Nat
  length : Nat
deriving DecidableEq, Repr

/-- The offset just past the span, as a machine word. -/
def Span.stop (s : Span) : Nat := (s.offset + s.length) % (1 <<< 64)

end LoxLexer
