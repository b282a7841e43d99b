import LoxLexer.Proofs.Outcome
import LoxLexer.Proofs.Pinpointing

/-!
# `LoxLexer.Proofs.Checking` — a scanner that checks what it computes

The scanner takes the text and the place of a piece from two offsets, where the piece starts and where the
cursor stands, and the content of a string from the same offsets without the quotes. Whether these differences
are what they seem depends on where the cursor can be: it never gets back to before the start of the piece, it
never leaves the text, and behind the closing quote it is at least two bytes further than the opening one. Here
the scanner is written down with every difference, slice and character checked, the error blocks and the
cursor moves included. It is never stopped, and comes to the same end.

## Contents
- `Scanner.lexeme?` … `dispatch?`, `scanToken?` — the parts of the scanner, each with an equation for its
  result. They hold where the cursor is `Cursor.Within` the piece.
- `Scanner.turn?`, `Scanner.run?` — the main loop. `reaches_turn?` follows it turn by turn to its end.
- `ChecksPass`, `checksPass` — cursors, locations, blocks and scans together.
-/

namespace LoxLexer

namespace Scanner

variable {s s' : Scanner}

/-! ## Noting a piece

From here on each definition is the one without the question mark, with checked operations in it. -/

def lexeme? (s : Scanner) : Option Bytes := do
  let width ← difference? s.cursor.position s.start
  slice? s.cursor.text s.start width

def span? (s : Scanner) : Option Span := do
  let width ← difference? s.cursor.position s.start
  return ⟨s.start, width⟩

def emit? (s : Scanner) (kind : Kind) (payload : Payload) : Option Scanner := do
  let span ← s.span?
  return { s with tokens := s.tokens ++ [⟨kind, span, payload⟩] }

def fail? (s : Scanner) (fault : Fault) : Option Scanner := do
  let span ← s.span?
  let e : LexicalError := ⟨fault, span⟩
  let block ← errorBlock? s.report.source e.message e.span
  return { s with
    errors := s.errors ++ [e]
    report := { s.report with blocks := block :: s.report.blocks } }

def failAtEnd? (s : Scanner) (fault : Fault) : Option Scanner := do
  match ← s.cursor.stepBack? with
  | (true, cursor) => (s.moveTo cursor).fail? fault
  | (false, cursor) => return (s.moveTo cursor).breakDown (.nothingToUndo cursor.position)

/-- The cursor may be moved to anywhere behind the start of the piece. -/
theorem within_moveTo {c : Cursor} (h : c.Within s.start) : (s.moveTo c).cursor.Within (s.moveTo c).start := h

section Noting

variable (h : s.cursor.Within s.start)
include h

theorem lexeme?_eq : s.lexeme? = some s.lexeme := by
  have hstart : s.start ≤ s.cursor.text.length := h.le_position.trans h.position_le
  rw [lexeme?, difference?_eq h.le_position]
  exact slice?_eq hstart _

theorem span?_eq : s.span? = some s.span := by
  rw [span?, difference?_eq h.le_position]
  rfl

theorem emit?_eq (kind : Kind) (payload : Payload) : s.emit? kind payload = some (s.emit kind payload) := by
  rw [emit?, span?_eq h]
  rfl

theorem fail?_eq (fault : Fault) : s.fail? fault = some (s.fail fault) := by
  rw [fail?, span?_eq h]
  simp only [Option.bind_eq_bind, Option.bind_some, errorBlock?_eq]
  rfl

theorem failAtEnd?_eq (fault : Fault) : s.failAtEnd? fault = some (s.failAtEnd fault) := by
  have hback := h.stepBack
  rw [failAtEnd?, Cursor.stepBack?_eq h, failAtEnd]
  cases hanswer : s.cursor.stepBack with
  | mk done cursor =>
    rw [hanswer] at hback
    cases done with
    | false => rfl
    | true => exact fail?_eq (within_moveTo hback) fault

end Noting

/-! ## One piece -/

def scanSymbol? (s : Scanner) (code : CodePoint) (symbol : Symbol) : Option Scanner :=
  match Symbol.ofCodes? [code, '='.toNat] with
  | none => s.emit? (.symbol symbol) .empty
  | some longer => do
    match ← s.cursor.accept? '='.toNat with
    | (true, cursor) => (s.moveTo cursor).emit? (.symbol longer) .empty
    | (false, cursor) => (s.moveTo cursor).emit? (.symbol symbol) .empty

def scanLineComment? (s : Scanner) : Option Scanner := do
  let (_, cursor) ← s.cursor.readThrough? '\n'
  return s.moveTo cursor

def scanBlockComment? (s : Scanner) : Option Scanner := do
  match ← s.cursor.readThroughClose? with
  | (true, cursor) => return s.moveTo cursor
  | (false, cursor) => (s.moveTo cursor).failAtEnd? .unterminatedComment

def scanSlash? (s : Scanner) : Option Scanner := do
  if (← s.cursor.peek? 0) = some '/'.toNat then s.scanLineComment?
  else if (← s.cursor.peek? 0) = some '*'.toNat then
    let (_, cursor) ← s.cursor.next?
    (s.moveTo cursor).scanBlockComment?
  else s.emit? (.symbol .slash) .empty

def scanString? (s : Scanner) : Option Scanner := do
  match ← s.cursor.readThrough? '"' with
  | (true, cursor) =>
    let width ← difference? cursor.position s.start
    let count ← difference? width 2
    let content ← slice? cursor.text (s.start + 1) count
    (s.moveTo cursor).emit? .string (.text content)
  | (false, cursor) => (s.moveTo cursor).failAtEnd? .unterminatedString

def emitInteger? (s : Scanner) : Option Scanner := do
  let text ← s.lexeme?
  match Number.integer? text with
  | some n => s.emit? .integer (.integer n)
  | none => s.fail? (.unreadableInteger text)

def emitFloat? (s : Scanner) : Option Scanner := do
  let text ← s.lexeme?
  match Number.float? text with
  | some x => s.emit? .float (.float x)
  | none => s.fail? (.unreadableFloat text)

def scanNumber? (s : Scanner) : Option Scanner := do
  let whole ← s.cursor.skipWhile? CodePoint.isDigit
  let digit ← whole.peek? 1
  let point ← whole.peek? 0
  if point == some '.'.toNat && digit.any CodePoint.isDigit then
    let (_, cursor) ← whole.next?
    let cursor ← cursor.skipWhile? CodePoint.isDigit
    (s.moveTo cursor).emitFloat?
  else (s.moveTo whole).emitInteger?

def emitWord? (s : Scanner) : Option Scanner := do
  let text ← s.lexeme?
  match Kind.ofWord text with
  | .identifier => s.emit? .identifier (.text text)
  | kind => s.emit? kind .empty

def scanWord? (s : Scanner) : Option Scanner := do
  let cursor ← s.cursor.skipWhile? CodePoint.isWordPart
  (s.moveTo cursor).emitWord?

def dispatch? (s : Scanner) (code : CodePoint) : Option Scanner :=
  match Symbol.ofCodes? [code] with
  | some .slash => s.scanSlash?
  | some symbol => s.scanSymbol? code symbol
  | none =>
    if CodePoint.isBlank code then some s
    else if code = '"'.toNat then s.scanString?
    else if CodePoint.isDigit code then s.scanNumber?
    else if CodePoint.isWordStart code then s.scanWord?
    else do
      let text ← s.lexeme?
      s.fail? (.unexpectedCharacter text)

def scanToken? (s : Scanner) : Option Scanner := do
  match ← s.cursor.next? with
  | (some code, cursor) => (s.begin.moveTo cursor).dispatch? code
  | (none, cursor) => return (s.begin.moveTo cursor).breakDown (.nothingToRead cursor.position)

section Shapes

variable (h : s.cursor.Within s.start)
include h

theorem scanSymbol?_eq (code : CodePoint) (symbol : Symbol) :
    s.scanSymbol? code symbol = some (s.scanSymbol code symbol) := by
  have haccept := h.accept '='.toNat
  rw [scanSymbol?, scanSymbol]
  cases Symbol.ofCodes? [code, '='.toNat] with
  | none => exact emit?_eq h _ _
  | some longer =>
    rw [Cursor.accept?_eq]
    cases hanswer : s.cursor.accept '='.toNat with
    | mk done cursor =>
      rw [hanswer] at haccept
      cases done <;> exact emit?_eq (within_moveTo haccept) _ _

theorem scanBlockComment?_eq : s.scanBlockComment? = some s.scanBlockComment := by
  have hread := h.readThroughClose
  rw [scanBlockComment?, scanBlockComment, Cursor.readThroughClose?_eq]
  cases hanswer : s.cursor.readThroughClose with
  | mk found cursor =>
    rw [hanswer] at hread
    cases found with
    | false => exact failAtEnd?_eq (within_moveTo hread) _
    | true => rfl

theorem scanSlash?_eq : s.scanSlash? = some s.scanSlash := by
  simp only [scanSlash?, scanSlash, Cursor.peek?_eq, Option.bind_eq_bind, Option.bind_some]
  split
  · rw [scanLineComment?, Cursor.readThrough?_eq]
    rfl
  · split
    · rw [Cursor.next?_eq]
      exact scanBlockComment?_eq (within_moveTo h.next)
    · exact emit?_eq h _ _

/-- **Both quotes were read**: the opening one before the loop, the closing one by it. -/
theorem scanString?_eq (hstart : s.start < s.cursor.position) : s.scanString? = some s.scanString := by
  have hread := h.readThrough '"'
  rw [scanString?, scanString, Cursor.readThrough?_eq]
  cases hanswer : s.cursor.readThrough '"' with
  | mk found cursor =>
    rw [hanswer] at hread
    cases found with
    | false => exact failAtEnd?_eq (within_moveTo hread) _
    | true =>
      have hclose := Cursor.lt_position_readThrough hanswer
      have hend := hread.position_le
      simp only at hend
      simp only [Option.bind_eq_bind, Option.bind_some,
        difference?_eq (show s.start ≤ cursor.position by omega),
        difference?_eq (show 2 ≤ cursor.position - s.start by omega),
        slice?_eq (show s.start + 1 ≤ cursor.text.length by omega)]
      exact emit?_eq (within_moveTo hread) _ _

theorem emitInteger?_eq : s.emitInteger? = some s.emitInteger := by
  rw [emitInteger?, emitInteger, lexeme?_eq h, Option.bind_eq_bind, Option.bind_some]
  cases Number.integer? s.lexeme with
  | some n => exact emit?_eq h _ _
  | none => exact fail?_eq h _

theorem emitFloat?_eq : s.emitFloat? = some s.emitFloat := by
  rw [emitFloat?, emitFloat, lexeme?_eq h, Option.bind_eq_bind, Option.bind_some]
  cases Number.float? s.lexeme with
  | some x => exact emit?_eq h _ _
  | none => exact fail?_eq h _

theorem scanNumber?_eq : s.scanNumber? = some s.scanNumber := by
  have hwhole := h.skipWhile CodePoint.isDigit
  simp only [scanNumber?, scanNumber, Cursor.atFraction, Cursor.skipWhile?_eq, Cursor.peek?_eq,
    Cursor.next?_eq, Option.bind_eq_bind, Option.bind_some,
    emitFloat?_eq (within_moveTo (hwhole.next.skipWhile CodePoint.isDigit)),
    emitInteger?_eq (within_moveTo hwhole), ← apply_ite some]
  rfl

theorem emitWord?_eq : s.emitWord? = some s.emitWord := by
  rw [emitWord?, emitWord, lexeme?_eq h, Option.bind_eq_bind, Option.bind_some]
  cases Kind.ofWord s.lexeme <;> exact emit?_eq h _ _

theorem scanWord?_eq : s.scanWord? = some s.scanWord := by
  rw [scanWord?, Cursor.skipWhile?_eq]
  exact emitWord?_eq (within_moveTo (h.skipWhile _))

theorem dispatch?_eq (hstart : s.start < s.cursor.position) (code : CodePoint) :
    s.dispatch? code = some (s.dispatch code) := by
  rw [dispatch?, dispatch]
  cases Symbol.ofCodes? [code] with
  | some symbol =>
    cases symbol <;> first | exact scanSlash?_eq h | exact scanSymbol?_eq h _ _
  | none =>
    simp only [lexeme?_eq h, scanString?_eq h hstart, scanNumber?_eq h, scanWord?_eq h, fail?_eq h,
      Option.bind_eq_bind, Option.bind_some, ← apply_ite some]

end Shapes

/-- **The step is never stopped.** Behind the first character of a piece the cursor is behind its start, and
    what can be taken back is only what was read since. -/
theorem scanToken?_eq (h : s.cursor.position ≤ s.cursor.text.length) :
    s.scanToken? = some s.scanToken := by
  have hbegun : s.cursor.next.2.Within s.cursor.position := Cursor.within_next (Nat.le_refl _) h
  rw [scanToken?, scanToken, Cursor.next?_eq]
  cases hnext : s.cursor.next with
  | mk code? cursor =>
    rw [hnext] at hbegun
    cases code? with
    | none => rfl
    | some code =>
      exact dispatch?_eq (s := s.begin.moveTo cursor) hbegun (Cursor.lt_position_next hnext) code

/-! ## Runs -/

/-- One turn of the main loop. A scanner that was stopped has none. -/
def turn? : Option Scanner → Option (Option Scanner)
  | none => none
  | some s => if s.cursor.atEnd || s.breakdown.isSome then none else some s.scanToken?

/-- The main loop. -/
def run? (s : Scanner) : Part (Option Scanner) := StateTransition.eval turn? (some s)

theorem turn?_eq (h : s.cursor.position ≤ s.cursor.text.length) : turn? (some s) = s.turn.map some := by
  rw [turn?, turn, scanToken?_eq h]
  split <;> rfl

theorem position_le_of_reaches (hreaches : StateTransition.Reaches turn s s')
    (h : s.cursor.position ≤ s.cursor.text.length) : s'.cursor.position ≤ s'.cursor.text.length := by
  obtain ⟨ps, htakes⟩ := exists_takes_of_reaches hreaches
  rw [htakes.reads.text]
  exact htakes.reads.position_le h

/-- Turn by turn the scanner gets where it gets without checks. -/
theorem reaches_turn? (hreaches : StateTransition.Reaches turn s s')
    (h : s.cursor.position ≤ s.cursor.text.length) :
    StateTransition.Reaches turn? (some s) (some s') := by
  induction hreaches with
  | refl => exact .refl
  | @tail s₁ s₂ hreaches hturn ih =>
    refine ih.tail ?_
    rw [turn?_eq (position_le_of_reaches hreaches h), Option.mem_def.mp hturn]
    rfl

/-- **The run is never stopped**, and comes to the same end. -/
theorem run?_eq {final : Scanner} (hrun : s.run = Part.some final)
    (h : s.cursor.position ≤ s.cursor.text.length) : s.run? = Part.some (some final) := by
  obtain ⟨hreaches, hend⟩ := StateTransition.mem_eval.mp (Part.eq_some_iff.mp hrun)
  refine Part.eq_some_iff.mpr (StateTransition.mem_eval.mpr ⟨reaches_turn? hreaches h, ?_⟩)
  rw [turn?_eq (position_le_of_reaches hreaches h), hend]
  rfl

end Scanner

/-! ## All of it -/

/-- **Nothing is ever stopped**: no difference would be negative, no slice starts beyond its text and no
    character is decoded outside of it, whatever the texts, the moves and the spans. -/
structure ChecksPass : Prop where
  /-- Any sequence of moves of a cursor. -/
  moves (text : Bytes) (moves : List Cursor.Move) :
    (Cursor.ofText text).performAll? moves = some ((Cursor.ofText text).performAll moves)
  /-- The place of any offset in any text. -/
  location (source : Bytes) (offset : Nat) :
    Location.ofOffset? source offset = some (Location.ofOffset source offset)
  /-- The block of any message about any span of any text. -/
  block (source message : Bytes) (span : Span) :
    errorBlock? source message span = some (errorBlock source message span)
  /-- A scan of any text into a report on any text. -/
  scan (report : Report) (source : Bytes) :
    ∃ final, (Scanner.ofSource report source).run? = Part.some (some final) ∧
      (Scanner.ofSource report source).run = Part.some final

theorem checksPass : ChecksPass where
  moves text := Cursor.performAll?_eq (Cursor.within_ofText text)
  location := Location.ofOffset?_eq
  block := errorBlock?_eq
  scan report source := by
    have hahead : (Scanner.ofSource report source).cursor.ahead = lexemes (pieces (decode source)) := by
      rw [lexemes, lexemes_pieces]
      rfl
    obtain ⟨final, hrun, -⟩ := Scanner.exists_run (cut_pieces (decode source)) hahead rfl
    exact ⟨final, Scanner.run?_eq hrun (Nat.zero_le _), hrun⟩

end LoxLexer
