import LoxLexer.Glyph

/-!
# `LoxLexer.Cursor` — reading a text with one step back

A cursor walks a byte string character by character. It can look any number of characters ahead, and
it can take back its **last** step once. Reading at the end is a step too, of width zero, so taking it
back changes nothing and succeeds.

- `Cursor` — the text, the byte position, and the width of the step that may be taken back.
- `peek`, `next`, `stepBack`, `accept`, `rewind` — the five moves.
- `Move`, `Answer`, `perform` — the same moves as data, for running a sequence of them.
-/

namespace LoxLexer

/-- A reading position in a text. -/
structure Cursor where
  text : Bytes
  /-- Bytes before the cursor. -/
  position : Nat
  /-- Width of the last step, while it can still be taken back. -/
  undo : Option Nat
deriving DecidableEq, Repr

namespace Cursor

/-- A cursor at the start of a text. -/
def ofText (text : Bytes) : Cursor := ⟨text, 0, none⟩

/-- The bytes not read yet. -/
def remaining (c : Cursor) : Bytes := c.text.drop c.position

/-- Nothing is left to read. -/
def atEnd (c : Cursor) : Bool := c.text.length ≤ c.position

/-- The character `ahead` places after the cursor, if there is one. -/
def peek (c : Cursor) (ahead : Nat) : Option CodePoint :=
  (decode c.remaining)[ahead]?.map Glyph.code

/-- Reads one character. At the end there is none, and the step has width zero. -/
def next (c : Cursor) : Option CodePoint × Cursor :=
  match firstGlyph? c.remaining with
  | none => (none, { c with undo := some 0 })
  | some g => (some g.code, { c with position := c.position + g.width, undo := some g.width })

/-- Takes the last step back, unless that was done already or there was none. -/
def stepBack (c : Cursor) : Bool × Cursor :=
  match c.undo with
  | none => (false, c)
  | some width => (true, { c with position := c.position - width, undo := none })

/-- Reads one character if it is the expected one, and otherwise changes nothing. -/
def accept (c : Cursor) (expected : CodePoint) : Bool × Cursor :=
  if (firstGlyph? c.remaining).map Glyph.code = some expected then (true, c.next.2) else (false, c)

/-- Back to the start of the text, with nothing to take back. -/
def rewind (c : Cursor) : Cursor := ofText c.text

/-! ## Moves as data -/

/-- One thing to do with a cursor. -/
inductive Move where
  | peek (ahead : Nat)
  | next
  | stepBack
  | accept (expected : CodePoint)
  | rewind
deriving DecidableEq, Repr

/-- What a move reports: a character or its absence, success or failure, or nothing. -/
inductive Answer where
  | character (code : Option CodePoint)
  | success (done : Bool)
  | nothing
deriving DecidableEq, Repr

/-- The answer to a move and the cursor after it. -/
def perform (c : Cursor) : Move → Answer × Cursor
  | .peek ahead => (.character (c.peek ahead), c)
  | .next => (.character c.next.1, c.next.2)
  | .stepBack => (.success c.stepBack.1, c.stepBack.2)
  | .accept expected => (.success (c.accept expected).1, (c.accept expected).2)
  | .rewind => (.nothing, c.rewind)

/-- The answers to a sequence of moves, each with the cursor after it. -/
def performAll (c : Cursor) : List Move → List (Answer × Cursor)
  | [] => []
  | move :: moves => c.perform move :: performAll (c.perform move).2 moves

end Cursor

end LoxLexer
