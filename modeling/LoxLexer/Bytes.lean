/-!
# `LoxLexer.Bytes` — raw text as byte strings

Source text, paths, arguments and everything the program writes are **byte strings**. Nothing promises
that they are valid UTF-8, and every offset, length and column in the library counts bytes.

- `Bytes` — a byte string.
- `ascii` — the byte string of a literal.
- `spaces`, `endLine` — padding, and a text closed as a line.
- `split` — the parts of a byte string between separators.
-/

namespace LoxLexer

/-- A byte string. -/
abbrev Bytes := List UInt8

/-- The byte string of a literal text: one byte per character, for characters below U+0100. -/
def ascii (text : String) : Bytes := text.toList.map fun c => c.toNat.toUInt8

/-- The byte that ends a line. -/
def newline : UInt8 := 0x0A

/-- The byte that may precede `newline` at the end of a line. -/
def carriageReturn : UInt8 := 0x0D

/-- A run of `n` spaces. -/
def spaces (n : Nat) : Bytes := List.replicate n 0x20

/-- The text closed as a line of its own. -/
def endLine (text : Bytes) : Bytes := text ++ [newline]

/-- The parts of a byte string between the bytes equal to `sep`: always one more part than there are
    separators, so a string without any is its own single part. -/
def split (sep : UInt8) : Bytes → List Bytes
  | [] => [[]]
  | b :: rest =>
    if b = sep then [] :: split sep rest
    else match split sep rest with
      | [] => [[b]]
      | part :: parts => (b :: part) :: parts

theorem length_spaces (n : Nat) : (spaces n).length = n := by simp [spaces]

theorem length_split (sep : UInt8) (text : Bytes) :
    (split sep text).length = text.count sep + 1 := by
  induction text with
  | nil => rfl
  | cons b rest ih =>
    by_cases h : b = sep
    · simp [split, h, ih]
    · have hcount : (b :: rest).count sep = rest.count sep := by simp [h]
      rw [hcount, ← ih]
      cases hs : split sep rest with
      | nil => simp [hs] at ih
      | cons part parts => simp [split, h, hs]

end LoxLexer
