import LoxLexer.Binary64

/-!
# `LoxLexer.Piece.Number` — the values of number literals

Literals are read from their bytes, and only single-byte digits and a single-byte point count: a digit in
a longer spelling makes the literal unreadable. Leading zeros do no harm, and neither does length.

- `integer?` — a whole number, up to the greatest 64-bit signed integer.
- `float?` — the double nearest to a decimal, unless that would be infinite.
-/

namespace LoxLexer.Number

/-- The greatest 64-bit signed integer. -/
def greatestInteger : Nat := (1 <<< 63) - 1

/-- The value of an integer literal. -/
def integer? (lexeme : Bytes) : Option Int :=
  if lexeme.all Decimal.isDigit ∧ Decimal.value lexeme ≤ greatestInteger then
    some (Decimal.value lexeme)
  else none

/-- The byte of a decimal point. -/
def point : UInt8 := '.'.toUInt8

/-- The bytes of a literal before its first point and after it. -/
def halves (lexeme : Bytes) : Bytes × Bytes :=
  let whole := lexeme.takeWhile (· != point)
  (whole, lexeme.drop (whole.length + 1))

/-- The value of a decimal literal: of digits, a point and digits. -/
def float? (lexeme : Bytes) : Option Binary64 :=
  let (whole, fraction) := halves lexeme
  if whole.all Decimal.isDigit ∧ fraction.all Decimal.isDigit ∧ fraction ≠ [] then
    Binary64.nearest? (Decimal.value (whole ++ fraction)) (Nat.pow 10 fraction.length)
  else none

end LoxLexer.Number
