import LoxLexer.Source.LineEnding

/-!
# `LoxLexer.Source.Basic` — the text of a source file

Reading files is the caller's business: it passes a function from a path to the raw bytes found there.
A source is those bytes with its line endings brought to one kind. The one way to fail is that nothing
can be opened. What can be opened is taken to be readable to its end, so there is no error for a file that
breaks off while it is read.
-/

namespace LoxLexer

/-- Why there is no source to read. -/
inductive SourceError where
  | cannotOpen (path : Bytes)
deriving DecidableEq, Repr

/-- The wording of a source error. -/
def SourceError.message : SourceError → Bytes
  | .cannotOpen path => ascii "cannot open '" ++ path ++ ascii "'"

/-- Reads the source at a path, given what can be read where. -/
def readSource (read : Bytes → Option Bytes) (path : Bytes) : Except SourceError Bytes :=
  match read path with
  | some raw => .ok (unifyNewlines raw)
  | none => .error (.cannotOpen path)

end LoxLexer
