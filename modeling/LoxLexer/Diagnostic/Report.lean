import LoxLexer.Diagnostic.Block
import LoxLexer.Scan

/-!
# `LoxLexer.Diagnostic.Report` — the error blocks about a text

A report quotes one text and collects error blocks. Its **text** is the blocks in the order in which they
were added, each followed by an empty line. Scanning into a report adds every error, in order. The report
has no influence on what the scan finds, and the text it quotes need not be the text scanned.
-/

namespace LoxLexer

/-- A text to quote, and the blocks collected so far, the newest first. -/
structure Report where
  source : Bytes
  blocks : List Bytes
deriving DecidableEq, Repr

namespace Report

/-- A report on a text, with no blocks yet. -/
def ofSource (source : Bytes) : Report := ⟨source, []⟩

/-- What the report says so far. -/
def text (r : Report) : Bytes := r.blocks.reverse.flatMap endLine

/-- Adds the block for a message about a span of the quoted text. -/
def add (r : Report) (message : Bytes) (span : Span) : Report :=
  { r with blocks := errorBlock r.source message span :: r.blocks }

/-- Adds the block of an error. -/
def addError (r : Report) (e : LexicalError) : Report := r.add e.message e.span

/-- Scans a text and adds its errors. -/
def scan (r : Report) (source : Bytes) : Scan × Report :=
  (LoxLexer.scan source, (LoxLexer.scan source).errors.foldl addError r)

/-- An added block and an empty line follow what the report said before. -/
theorem text_add (r : Report) (message : Bytes) (span : Span) :
    (r.add message span).text = r.text ++ endLine (errorBlock r.source message span) := by
  simp [text, add]

end Report

end LoxLexer
