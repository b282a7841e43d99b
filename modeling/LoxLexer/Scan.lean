import LoxLexer.Piece.Basic

/-!
# `LoxLexer.Scan` — the tokens and lexical errors of a text

Scanning cuts a text into pieces, gives every piece its offset and collects the tokens and the errors, each
in the order of the text. The token list always ends with one end-of-input token of length zero. An error
never stops the scan.

- `Placed` — a piece and its offset, hence the token or the error that it is.
- `place`, `placedPieces` — the pieces of a text, each at its offset.
- `Scan`, `scan` — the two lists of a text.
- `Scan.status`, `Scan.message` — the outcome as a whole: it failed if there is any error.
-/

namespace LoxLexer

/-! ## Pieces in their places -/

/-- A piece of a text and the offset of its first byte. -/
structure Placed where
  offset : Nat
  piece : Piece
deriving DecidableEq, Repr

namespace Placed

/-- The bytes that the piece takes. -/
def span (p : Placed) : Span := ⟨p.offset, p.piece.width⟩

/-- The token that the piece is, if it is one. -/
def token? (p : Placed) : Option Token :=
  match p.piece.reading with
  | .token kind payload => some ⟨kind, p.span, payload⟩
  | _ => none

/-- The error that the piece is, if it is one. -/
def error? (p : Placed) : Option LexicalError :=
  match p.piece.reading with
  | .faulty fault => some ⟨fault, p.span⟩
  | _ => none

end Placed

/-- Pieces put one after another, the first of them at `offset`. -/
def place (offset : Nat) : List Piece → List Placed
  | [] => []
  | p :: rest => ⟨offset, p⟩ :: place (offset + p.width) rest

/-- The pieces of a text, each in its place. -/
def placedPieces (source : Bytes) : List Placed := place 0 (pieces (decode source))

/-! ## Scanning -/

/-- What scanning a text yields. -/
structure Scan where
  tokens : List Token
  errors : List LexicalError
deriving DecidableEq, Repr

/-- The token that closes a text of the given length. -/
def endToken (length : Nat) : Token := ⟨.endOfInput, ⟨length, 0⟩, .empty⟩

/-- Scans a text. -/
def scan (source : Bytes) : Scan where
  tokens := (placedPieces source).filterMap Placed.token? ++ [endToken source.length]
  errors := (placedPieces source).filterMap Placed.error?

/-- How a scan went. -/
inductive Status where
  | ok
  | failed
deriving DecidableEq, Repr

namespace Scan

/-- A scan is fine exactly when it found no error. -/
def status (s : Scan) : Status := if s.errors.isEmpty then .ok else .failed

/-- The summary of a scan that failed; empty for one that did not. -/
def message (s : Scan) : Bytes :=
  match s.status with
  | .ok => []
  | .failed => ascii "Error scanning file."

end Scan

end LoxLexer
