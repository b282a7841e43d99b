import LoxLexer.Piece.Fault
import LoxLexer.Piece.Form
import LoxLexer.Piece.Number
import LoxLexer.Token.Basic

/-!
# `LoxLexer.Piece.Basic` — a text cut into pieces, and what each piece means

A text is first cut into pieces from left to right, each as long as `munch` makes it. Only then is a piece
given a meaning: it is skipped, it is a token, or it is faulty. Cutting does not depend on meaning, so a
fault never moves the pieces after it.

- `Piece` — the characters of a piece, at least one, and their shape.
- `pieces` — the pieces of a text; `lexemes_pieces` says that they are the text, in order.
- `Reading`, `Piece.reading` — what a piece means.
-/

namespace LoxLexer

/-- A piece of text: its shape, its first character and the others. -/
structure Piece where
  form : Form
  head : Glyph
  tail : List Glyph
deriving DecidableEq, Repr

namespace Piece

/-- The characters of the piece. -/
def lexeme (p : Piece) : List Glyph := p.head :: p.tail

/-- The bytes of the piece. -/
def bytes (p : Piece) : Bytes := spell p.lexeme

/-- How many bytes the piece has. -/
def width (p : Piece) : Nat := p.bytes.length

/-- The piece that starts with `g` when `rest` follows. -/
def first (g : Glyph) (rest : List Glyph) : Piece :=
  ⟨(munch g rest).1, g, rest.take (munch g rest).2⟩

/-- A piece is never empty. -/
theorem width_pos (p : Piece) : 0 < p.width := by
  simp only [width, bytes, lexeme, spell_cons, List.length_append, Glyph.length_bytes]
  exact Nat.add_pos_left p.head.width_pos _

end Piece

/-! ## Cutting -/

/-- The pieces of a text, first to last. -/
def pieces : List Glyph → List Piece
  | [] => []
  | g :: rest => Piece.first g rest :: pieces (rest.drop (munch g rest).2)
termination_by glyphs => glyphs.length
decreasing_by simp only [List.length_cons, List.length_drop]; omega

@[simp] theorem pieces_nil : pieces [] = [] := by simp [pieces]

theorem pieces_cons (g : Glyph) (rest : List Glyph) :
    pieces (g :: rest) = Piece.first g rest :: pieces (rest.drop (munch g rest).2) := by
  rw [pieces]

/-- **Cutting loses nothing**: the characters of the pieces are the characters of the text. -/
theorem lexemes_pieces (glyphs : List Glyph) : (pieces glyphs).flatMap Piece.lexeme = glyphs := by
  fun_induction pieces glyphs with
  | case1 => rfl
  | case2 g rest ih =>
    rw [List.flatMap_cons, ih, Piece.lexeme, Piece.first, List.cons_append, List.take_append_drop]

/-! ## Reading -/

/-- What a piece of text means. -/
inductive Reading where
  | skipped
  | token (kind : Kind) (payload : Payload)
  | faulty (fault : Fault)
deriving DecidableEq, Repr

/-- A word carries its text unless it is reserved. -/
def readWord (word : Bytes) : Reading :=
  match Kind.ofWord word with
  | .identifier => .token .identifier (.text word)
  | kind => .token kind .empty

/-- The content of a string is its lexeme without the first byte and the last. -/
def stringContent (lexeme : Bytes) : Bytes := (lexeme.drop 1).take (lexeme.length - 2)

namespace Piece

/-- What a piece means, by its shape and its bytes. -/
def reading (p : Piece) : Reading :=
  match p.form with
  | .blank | .lineComment | .blockComment => .skipped
  | .symbol s => .token (.symbol s) .empty
  | .word => readWord p.bytes
  | .integer => match Number.integer? p.bytes with
    | some n => .token .integer (.integer n)
    | none => .faulty (.unreadableInteger p.bytes)
  | .decimal => match Number.float? p.bytes with
    | some x => .token .float (.float x)
    | none => .faulty (.unreadableFloat p.bytes)
  | .string => .token .string (.text (stringContent p.bytes))
  | .openString => .faulty .unterminatedString
  | .openComment => .faulty .unterminatedComment
  | .stray => .faulty (.unexpectedCharacter p.bytes)

end Piece

end LoxLexer
