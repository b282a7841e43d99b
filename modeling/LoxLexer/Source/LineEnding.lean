import LoxLexer.Bytes

/-!
# `LoxLexer.Source.LineEnding` — one kind of line ending

Files may end their lines with a carriage return and a newline. The carriage return directly before a
newline is dropped; every other byte stays, lone carriage returns included. Each pair is judged in the
text as it was, so of several carriage returns before a newline only the last one goes.
-/

namespace LoxLexer

/-- The text with every carriage return that directly precedes a newline dropped. -/
def unifyNewlines : Bytes → Bytes
  | [] => []
  | b :: rest =>
    if b = carriageReturn ∧ rest.head? = some newline then unifyNewlines rest
    else b :: unifyNewlines rest

end LoxLexer
