import LoxLexer.Token.Symbol

/-!
# `LoxLexer.Piece.Form` — where the next piece of a text ends, and what shape it has

From any character on, a text starts with exactly one **piece**: a blank, a comment, a symbol, a word, a
number, a string, or something that is none of these. `munch` looks at the first character and at what
follows and gives the shape of the piece and how many further characters belong to it. It always takes
as much as the shape allows:

- words and numbers run on as long as their characters do, and a point belongs to a number only when a
  digit follows it;
- `=` belongs to the symbol before it wherever the two together are a symbol;
- a line comment takes its newline, a block comment ends at the first `*/` after its opener, a string at
  the next quote; comments do not nest and strings have no escapes;
- a block comment or a string that never ends takes the rest of the text.
-/

namespace LoxLexer

/-- The shape of a piece of text. -/
inductive Form where
  | blank
  | lineComment
  | blockComment
  | openComment
  | symbol (s : Symbol)
  | word
  | integer
  | decimal
  | string
  | openString
  | stray
deriving DecidableEq, Repr

/-! ## How far each shape runs -/

/-- How many characters from the start have the given property. -/
def runLength (p : Glyph → Bool) (glyphs : List Glyph) : Nat := (glyphs.takeWhile p).length

/-- How many characters there are through the first `c`, if there is one. -/
def lengthThrough? (c : Char) : List Glyph → Option Nat
  | [] => none
  | g :: rest => if g.is c then some 1 else (lengthThrough? c rest).map (· + 1)

/-- How many characters there are through the first `*/`, if there is one. -/
def lengthThroughClose? : List Glyph → Option Nat
  | [] => none
  | [_] => none
  | first :: second :: rest =>
    if first.is '*' && second.is '/' then some 2
    else (lengthThroughClose? (second :: rest)).map (· + 1)

/-! ## What a first character starts -/

/-- What a slash starts: a comment, closed or not, or the symbol itself. -/
def munchSlash (rest : List Glyph) : Form × Nat :=
  match rest with
  | [] => (.symbol .slash, 0)
  | second :: more =>
    if second.is '/' then (.lineComment, (lengthThrough? '\n' rest).getD rest.length)
    else if second.is '*' then
      match lengthThroughClose? more with
      | some length => (.blockComment, length + 1)
      | none => (.openComment, rest.length)
    else (.symbol .slash, 0)

/-- What a quote starts: a string through the next quote, or through the end of the text. -/
def munchQuote (rest : List Glyph) : Form × Nat :=
  match lengthThrough? '"' rest with
  | some length => (.string, length)
  | none => (.openString, rest.length)

/-- What a digit starts: an integer, or a decimal where a point and a digit follow the integer. -/
def munchDigit (rest : List Glyph) : Form × Nat :=
  let whole := runLength Glyph.isDigit rest
  match rest.drop whole with
  | point :: first :: more =>
    if point.is '.' && first.isDigit then (.decimal, whole + 2 + runLength Glyph.isDigit more)
    else (.integer, whole)
  | _ => (.integer, whole)

/-- What any other character starts: the longest symbol there is, or nothing known. -/
def munchSymbol (g : Glyph) (rest : List Glyph) : Form × Nat :=
  match rest.head?.bind fun second => Symbol.ofCodes? [g.code, second.code] with
  | some s => (.symbol s, 1)
  | none => match Symbol.ofCodes? [g.code] with
    | some s => (.symbol s, 0)
    | none => (.stray, 0)

/-! ## The next piece -/

/-- The shape of the piece that starts with `g`, when `rest` follows, and how many characters of `rest`
    belong to it. -/
def munch (g : Glyph) (rest : List Glyph) : Form × Nat :=
  if g.isBlank then (.blank, 0)
  else if g.isWordStart then (.word, runLength Glyph.isWordPart rest)
  else if g.isDigit then munchDigit rest
  else if g.is '"' then munchQuote rest
  else if g.is '/' then munchSlash rest
  else munchSymbol g rest

end LoxLexer
