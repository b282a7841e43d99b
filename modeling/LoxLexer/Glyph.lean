import LoxLexer.Bytes

/-!
# `LoxLexer.Glyph` — characters decoded from bytes

Text is read as UTF-8 by the **shape** of its bytes alone. A lead byte announces how many continuation
bytes follow it; if they all do, the sequence is one character, whatever number it spells. Overlong
forms, surrogates and numbers above U+10FFFF are accepted. Any other byte stands alone as U+FFFD.

- `Glyph` — a decoded character, kept as the bytes that spell it; never empty.
- `Glyph.code` — the code point those bytes spell.
- `decode`, `firstGlyph?` — the characters of a byte string, and the first of them alone.
- `spell` — the bytes of a list of characters; `spell_decode` says that decoding loses none.
- `CodePoint.isDigit` and its neighbours — the character classes of the language, ASCII throughout.
-/

namespace LoxLexer

/-! ## Character classes -/

/-- A decoded character number: any value below 2^21, not only the Unicode range. -/
abbrev CodePoint := Nat

namespace CodePoint

/-- The replacement character, read where bytes form no character. -/
def replacement : CodePoint := 0xFFFD

def isDigit (code : CodePoint) : Bool := '0'.toNat ≤ code && code ≤ '9'.toNat

/-- A letter or the underscore. -/
def isWordStart (code : CodePoint) : Bool :=
  ('a'.toNat ≤ code && code ≤ 'z'.toNat) || ('A'.toNat ≤ code && code ≤ 'Z'.toNat) ||
    code == '_'.toNat

def isWordPart (code : CodePoint) : Bool := isWordStart code || isDigit code

/-- Space, carriage return, tab or newline. -/
def isBlank (code : CodePoint) : Bool :=
  code == ' '.toNat || code == '\r'.toNat || code == '\t'.toNat || code == '\n'.toNat

end CodePoint

/-! ## Glyphs -/

/-- How many continuation bytes a lead byte announces: 1, 2 or 3 for a byte that opens a longer
    sequence, and 0 for every other byte. -/
def continuations (lead : UInt8) : Nat :=
  if lead < 0xC0 then 0
  else if lead < 0xE0 then 1
  else if lead < 0xF0 then 2
  else if lead < 0xF8 then 3
  else 0

/-- Bytes from 0x80 to 0xBF continue a sequence. -/
def isTrailing (b : UInt8) : Bool := 0x80 ≤ b && b < 0xC0

/-- One decoded character: its first byte and the continuation bytes taken with it. -/
structure Glyph where
  lead : UInt8
  tail : List UInt8
deriving DecidableEq, Repr

namespace Glyph

/-- The bytes that spell the character. -/
def bytes (g : Glyph) : Bytes := g.lead :: g.tail

/-- How many bytes spell the character. -/
def width (g : Glyph) : Nat := g.tail.length + 1

/-- The code point spelled. A single byte is itself below 0x80 and U+FFFD from there on; in a longer
    sequence every continuation byte brings six bits, and the lead byte the rest. -/
def code (g : Glyph) : CodePoint :=
  if g.tail.isEmpty then
    if g.lead < 0x80 then g.lead.toNat else CodePoint.replacement
  else
    g.tail.foldl (fun value b => value * 64 + b.toNat % 64) (g.lead.toNat % (1 <<< (6 - g.tail.length)))

/-- The character is the given ASCII one, in whatever spelling. -/
def is (g : Glyph) (c : Char) : Bool := g.code == c.toNat

def isDigit (g : Glyph) : Bool := CodePoint.isDigit g.code

def isWordStart (g : Glyph) : Bool := CodePoint.isWordStart g.code

def isWordPart (g : Glyph) : Bool := CodePoint.isWordPart g.code

def isBlank (g : Glyph) : Bool := CodePoint.isBlank g.code

/-- The continuation bytes taken with a lead byte from the text after it: all that the lead byte
    announces, or none if one of them is missing. -/
def trail (lead : UInt8) (rest : Bytes) : Bytes :=
  let announced := rest.take (continuations lead)
  if announced.length = continuations lead ∧ announced.all isTrailing then announced else []

/-- The character that starts at `lead` when `rest` follows. -/
def ofLead (lead : UInt8) (rest : Bytes) : Glyph := ⟨lead, trail lead rest⟩

theorem length_bytes (g : Glyph) : g.bytes.length = g.width := rfl

theorem width_pos (g : Glyph) : 0 < g.width := Nat.succ_pos _

theorem trail_append_drop (lead : UInt8) (rest : Bytes) :
    trail lead rest ++ rest.drop (trail lead rest).length = rest := by
  simp only [trail]
  split
  · rename_i h
    rw [h.1, List.take_append_drop]
  · simp

end Glyph

/-! ## Decoding -/

/-- The characters of a byte string, first to last. -/
def decode : Bytes → List Glyph
  | [] => []
  | lead :: rest =>
    Glyph.ofLead lead rest :: decode (rest.drop (Glyph.trail lead rest).length)
termination_by text => text.length
decreasing_by simp only [List.length_cons, List.length_drop]; omega

/-- The first character of a byte string, if it has one. -/
def firstGlyph? : Bytes → Option Glyph
  | [] => none
  | lead :: rest => some (Glyph.ofLead lead rest)

/-- The bytes that a list of characters spells. -/
def spell (glyphs : List Glyph) : Bytes := glyphs.flatMap Glyph.bytes

@[simp] theorem decode_nil : decode [] = [] := by simp [decode]

theorem decode_cons (lead : UInt8) (rest : Bytes) :
    decode (lead :: rest) =
      Glyph.ofLead lead rest :: decode (rest.drop (Glyph.trail lead rest).length) := by
  rw [decode]

/-- The first character can be read without decoding the rest. -/
theorem head?_decode (text : Bytes) : (decode text).head? = firstGlyph? text := by
  cases text with
  | nil => simp [firstGlyph?]
  | cons lead rest => rw [decode_cons]; rfl

@[simp] theorem spell_nil : spell [] = [] := rfl

@[simp] theorem spell_cons (g : Glyph) (glyphs : List Glyph) :
    spell (g :: glyphs) = g.bytes ++ spell glyphs := rfl

@[simp] theorem spell_append (left right : List Glyph) :
    spell (left ++ right) = spell left ++ spell right := by
  simp [spell]

/-- **Decoding loses nothing**: the characters of a text spell the text. -/
theorem spell_decode (text : Bytes) : spell (decode text) = text := by
  fun_induction decode text with
  | case1 => rfl
  | case2 lead rest ih =>
    rw [spell_cons, ih, Glyph.bytes, Glyph.ofLead, List.cons_append, Glyph.trail_append_drop]

end LoxLexer
