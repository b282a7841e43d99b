import LoxLexer.Decimal.Numeral
import LoxLexer.Decimal.Rounding

/-!
# `LoxLexer.Decimal.General` — a bounded number of significant digits

A positive quotient is first rounded to a fixed number of significant digits (`Significant.ofQuotient`)
and then written (`Significant.text`): positionally while its decimal exponent is moderate, otherwise as
one digit, a fraction and an exponent. Zeros at the end of the fraction are not written, and neither is
a point with nothing after it. Where positional notation ends is the business of a `Layout`.

Everything is exact arithmetic on `Nat`; the only rounding is the one in `roundDiv`.
-/

namespace LoxLexer.Decimal

/-- The choices of a number format. -/
structure Layout where
  /-- Significant digits computed. -/
  precision : Nat
  /-- The least decimal exponent that is written positionally; the greatest is `precision - 1`. -/
  leastPositional : Int
  /-- Digits of a written exponent, at least. -/
  exponentDigits : Nat
deriving DecidableEq, Repr

/-- A number `d.ddd… × 10^exponent`, its digits given as one whole number `digits`. -/
structure Significant where
  digits : Nat
  exponent : Int
deriving DecidableEq, Repr

namespace Significant

/-- The quotient `num / den` rounded to `precision` significant digits, for `num` and `den` above zero.

    The quotient is scaled by a power of ten that brings more than `precision` digits before the point;
    their number `count` is then known, and one rounding leaves `precision` of them. A carry out of the
    top digit gives `10^precision`, which is the next power of ten. -/
def ofQuotient (precision num den : Nat) : Significant :=
  let scale := digitCount den + precision
  let scaled := num * Nat.pow 10 scale
  let count := digitCount (scaled / den)
  let rounded := roundDiv scaled (den * Nat.pow 10 (count - precision))
  let exponent : Int := (count : Int) - 1 - scale
  if rounded = Nat.pow 10 precision then ⟨Nat.pow 10 (precision - 1), exponent + 1⟩
  else ⟨rounded, exponent⟩

/-- Digits without the zeros at their end. -/
def trimZeros (digits : Bytes) : Bytes :=
  (digits.reverse.dropWhile (· == digit 0)).reverse

/-- A whole part and a fraction, with the point only where there is a fraction to write. -/
def pointed (whole fraction : Bytes) : Bytes :=
  match trimZeros fraction with
  | [] => whole
  | kept => whole ++ ascii "." ++ kept

/-- A decimal exponent: its sign always, and zeros in front up to the least number of digits. -/
def exponentText (least : Nat) (exponent : Int) : Bytes :=
  let digits := numeral exponent.natAbs
  ascii (if exponent < 0 then "e-" else "e+") ++
    List.replicate (least - digits.length) (digit 0) ++ digits

/-- The number written in the given layout. -/
def text (layout : Layout) (s : Significant) : Bytes :=
  let digits := numeral s.digits
  if s.exponent < layout.leastPositional ∨ (layout.precision : Int) ≤ s.exponent then
    pointed (digits.take 1) (digits.drop 1) ++ exponentText layout.exponentDigits s.exponent
  else if s.exponent < 0 then
    pointed [digit 0] (List.replicate (s.exponent.natAbs - 1) (digit 0) ++ digits)
  else
    pointed (digits.take (s.exponent.toNat + 1)) (digits.drop (s.exponent.toNat + 1))

end Significant

/-- The text of the quotient `num / den`, which may be zero. -/
def quotientText (layout : Layout) (num den : Nat) : Bytes :=
  if num = 0 then [digit 0] else (Significant.ofQuotient layout.precision num den).text layout

end LoxLexer.Decimal
