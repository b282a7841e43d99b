import LoxLexer.Cursor
import LoxLexer.Diagnostic.Report
import Mathlib.Computability.StateTransition

/-!
# `LoxLexer.Scanner` — scanning one character at a time

The scanner is the machine behind `scan`. It holds a cursor, reads the characters of one piece after
another and notes tokens and errors as it goes; every error is added to a report at once. Nothing in it
counts the characters of a piece in advance, so it is not obvious that it gets anywhere, nor that the two
things that should never fail do not: reading a character where one must be, and taking back the step
that hit the end of the text. Where one of them fails, the scanner breaks down.

- `Cursor.skipWhile`, `Cursor.readThrough`, `Cursor.readThroughClose` — the loops that read a piece.
- `Scanner` — the cursor, where the current piece starts, and what was found. `Breakdown` — why it stopped
  early.
- `Scanner.scanToken` — one piece. `Scanner.turn`, `Scanner.run` — all of them, as long as there are any.
- `Scanner.toScan`, `Scanner.outcome`, `Scanner.message` — what a run yields.
-/

namespace LoxLexer

/-! ## Reading on -/

namespace Cursor

/-- A character that was read is not ahead any more. -/
theorem length_remaining_next {c c' : Cursor} {code : CodePoint} (h : c.next = (some code, c')) :
    c'.remaining.length < c.remaining.length := by
  unfold next at h
  cases hfirst : firstGlyph? c.remaining with
  | none => simp [hfirst] at h
  | some g =>
    have hsome : c.remaining ≠ [] := by
      rintro hnil
      rw [hnil] at hfirst
      cases hfirst
    have hlength := List.length_pos_iff.mpr hsome
    have hwidth := g.width_pos
    simp only [hfirst, Prod.mk.injEq] at h
    rw [← h.2]
    simp only [remaining, List.length_drop] at hlength ⊢
    omega

/-- A character that can be seen can be read. -/
theorem exists_next_of_peek {c : Cursor} {code : CodePoint} (h : c.peek 0 = some code) :
    c.next = (some code, c.next.2) := by
  rw [peek, ← List.head?_eq_getElem?, head?_decode] at h
  obtain ⟨g, hg, rfl⟩ := Option.map_eq_some_iff.mp h
  simp [next, hg]

/-- Reads characters as long as they have the given property. -/
def skipWhile (p : CodePoint → Bool) (c : Cursor) : Cursor :=
  match _h : c.peek 0 with
  | none => c
  | some code => if p code then skipWhile p c.next.2 else c
termination_by c.remaining.length
decreasing_by exact length_remaining_next (exists_next_of_peek ‹_›)

/-- Reads characters through the first `stop`, and says whether there was one. -/
def readThrough (stop : Char) (c : Cursor) : Bool × Cursor :=
  match _h : c.next with
  | (none, c') => (false, c')
  | (some code, c') => if code = stop.toNat then (true, c') else readThrough stop c'
termination_by c.remaining.length
decreasing_by exact length_remaining_next ‹_›

/-- Reads characters through the first `*/`, and says whether there was one. -/
def readThroughClose (c : Cursor) : Bool × Cursor :=
  match _h : c.next with
  | (none, c') => (false, c')
  | (some code, c') =>
    if code = '*'.toNat ∧ (c'.accept '/'.toNat).1 then (true, (c'.accept '/'.toNat).2)
    else readThroughClose c'
termination_by c.remaining.length
decreasing_by exact length_remaining_next ‹_›

/-- A point and a digit come next. -/
def atFraction (c : Cursor) : Bool :=
  c.peek 0 == some '.'.toNat && (c.peek 1).any CodePoint.isDigit

end Cursor

/-! ## The machine -/

/-- Why a scanner stops before the end of the text. -/
inductive Breakdown where
  /-- No character could be read where a piece should start. -/
  | nothingToRead (position : Nat)
  /-- The step that hit the end of the text could not be taken back. -/
  | nothingToUndo (position : Nat)
deriving DecidableEq, Repr

/-- The wording of a breakdown. -/
def Breakdown.message : Breakdown → Bytes
  | .nothingToRead position =>
    ascii "Critical: Scanner could not read next character at position " ++ Decimal.numeral position ++
      ascii "."
  | .nothingToUndo position =>
    ascii "Critical: Scanner could not revert at position " ++ Decimal.numeral position ++ ascii "."

/-- A scanner at work. -/
structure Scanner where
  cursor : Cursor
  /-- Offset of the piece that is being read. -/
  start : Nat
  tokens : List Token
  errors : List LexicalError
  report : Report
  breakdown : Option Breakdown
deriving DecidableEq, Repr

namespace Scanner

/-- A scanner at the start of a text. -/
def ofSource (report : Report) (source : Bytes) : Scanner :=
  ⟨Cursor.ofText source, 0, [], [], report, none⟩

/-- The bytes of the piece so far. -/
def lexeme (s : Scanner) : Bytes := (s.cursor.text.drop s.start).take (s.cursor.position - s.start)

/-- The place of the piece so far. -/
def span (s : Scanner) : Span := ⟨s.start, s.cursor.position - s.start⟩

/-- Goes on from another cursor. -/
def moveTo (s : Scanner) (cursor : Cursor) : Scanner := { s with cursor }

/-- Notes the piece as a token. -/
def emit (s : Scanner) (kind : Kind) (payload : Payload) : Scanner :=
  { s with tokens := s.tokens ++ [⟨kind, s.span, payload⟩] }

/-- Notes the piece as faulty and reports it. -/
def fail (s : Scanner) (fault : Fault) : Scanner :=
  { s with errors := s.errors ++ [⟨fault, s.span⟩], report := s.report.addError ⟨fault, s.span⟩ }

/-- Stops the scanner where it stands. -/
def breakDown (s : Scanner) (breakdown : Breakdown) : Scanner :=
  { s with breakdown := some breakdown }

/-- Takes back the step that hit the end, so that the piece ends there, and notes it as faulty. -/
def failAtEnd (s : Scanner) (fault : Fault) : Scanner :=
  match s.cursor.stepBack with
  | (true, cursor) => (s.moveTo cursor).fail fault
  | (false, cursor) => (s.moveTo cursor).breakDown (.nothingToUndo cursor.position)

/-! ### One piece, after its first character -/

/-- After a symbol: together with an equals sign behind it, it may be another one. -/
def scanSymbol (s : Scanner) (code : CodePoint) (symbol : Symbol) : Scanner :=
  match Symbol.ofCodes? [code, '='.toNat] with
  | none => s.emit (.symbol symbol) .empty
  | some longer => match s.cursor.accept '='.toNat with
    | (true, cursor) => (s.moveTo cursor).emit (.symbol longer) .empty
    | (false, cursor) => (s.moveTo cursor).emit (.symbol symbol) .empty

/-- After two slashes, the second of them not read yet. -/
def scanLineComment (s : Scanner) : Scanner := s.moveTo (s.cursor.readThrough '\n').2

/-- After `/*`. -/
def scanBlockComment (s : Scanner) : Scanner :=
  match s.cursor.readThroughClose with
  | (true, cursor) => s.moveTo cursor
  | (false, cursor) => (s.moveTo cursor).failAtEnd .unterminatedComment

/-- After a slash: a comment, or the symbol. -/
def scanSlash (s : Scanner) : Scanner :=
  if s.cursor.peek 0 = some '/'.toNat then s.scanLineComment
  else if s.cursor.peek 0 = some '*'.toNat then (s.moveTo s.cursor.next.2).scanBlockComment
  else s.emit (.symbol .slash) .empty

/-- After a quote. The content of a string is taken from the text as it is. -/
def scanString (s : Scanner) : Scanner :=
  match s.cursor.readThrough '"' with
  | (true, cursor) =>
    let content := (cursor.text.drop (s.start + 1)).take (cursor.position - s.start - 2)
    (s.moveTo cursor).emit .string (.text content)
  | (false, cursor) => (s.moveTo cursor).failAtEnd .unterminatedString

/-- Notes the piece as the integer that it spells. -/
def emitInteger (s : Scanner) : Scanner :=
  match Number.integer? s.lexeme with
  | some n => s.emit .integer (.integer n)
  | none => s.fail (.unreadableInteger s.lexeme)

/-- Notes the piece as the decimal that it spells. -/
def emitFloat (s : Scanner) : Scanner :=
  match Number.float? s.lexeme with
  | some x => s.emit .float (.float x)
  | none => s.fail (.unreadableFloat s.lexeme)

/-- After a digit. A point belongs to the number only if a digit follows it. -/
def scanNumber (s : Scanner) : Scanner :=
  let whole := s.cursor.skipWhile CodePoint.isDigit
  if whole.atFraction then (s.moveTo (whole.next.2.skipWhile CodePoint.isDigit)).emitFloat
  else (s.moveTo whole).emitInteger

/-- Notes the piece as a word. -/
def emitWord (s : Scanner) : Scanner :=
  match Kind.ofWord s.lexeme with
  | .identifier => s.emit .identifier (.text s.lexeme)
  | kind => s.emit kind .empty

/-- After the first character of a word. -/
def scanWord (s : Scanner) : Scanner := (s.moveTo (s.cursor.skipWhile CodePoint.isWordPart)).emitWord

/-- What a first character starts. -/
def dispatch (s : Scanner) (code : CodePoint) : Scanner :=
  match Symbol.ofCodes? [code] with
  | some .slash => s.scanSlash
  | some symbol => s.scanSymbol code symbol
  | none =>
    if CodePoint.isBlank code then s
    else if code = '"'.toNat then s.scanString
    else if CodePoint.isDigit code then s.scanNumber
    else if CodePoint.isWordStart code then s.scanWord
    else s.fail (.unexpectedCharacter s.lexeme)

/-- Starts a piece where the cursor stands. -/
def begin (s : Scanner) : Scanner := { s with start := s.cursor.position }

/-- Scans one piece from the cursor on. -/
def scanToken (s : Scanner) : Scanner :=
  match s.cursor.next with
  | (some code, cursor) => (s.begin.moveTo cursor).dispatch code
  | (none, cursor) => (s.begin.moveTo cursor).breakDown (.nothingToRead cursor.position)

/-! ### Runs -/

/-- One turn of the main loop scans one piece, as long as something is left to read and the scanner has
    not broken down. -/
def turn (s : Scanner) : Option Scanner :=
  if s.cursor.atEnd || s.breakdown.isSome then none else some s.scanToken

/-- The main loop. A loop that never came to an end would have no result. -/
def run (s : Scanner) : Part Scanner := StateTransition.eval turn s

/-- What was found, closed by the end-of-input token where the scanner stands. -/
def toScan (s : Scanner) : Scan := ⟨s.tokens ++ [endToken s.cursor.position], s.errors⟩

/-- How the run went: the status of the scan, unless the scanner broke down. -/
def outcome (s : Scanner) : Except Breakdown Status :=
  match s.breakdown with
  | some breakdown => .error breakdown
  | none => .ok s.toScan.status

/-- The summary of the run. -/
def message (s : Scanner) : Bytes :=
  match s.breakdown with
  | some breakdown => breakdown.message
  | none => s.toScan.message

end Scanner

end LoxLexer
