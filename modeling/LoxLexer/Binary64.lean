import LoxLexer.Decimal.General

/-!
# `LoxLexer.Binary64` — IEEE double-precision numbers by their bits

A double is its 64-bit pattern. Every finite one is a whole number of **units**, a unit being the least
positive double, 2^-1074. Reading a quotient, comparing and printing are exact arithmetic on units.

- `Magnitude` — the pattern without its sign: not a number, infinite, or a number of units.
- `Binary64.nearest?` — the double nearest to a quotient, ties to even; none where that would overflow.
- `Binary64.equal` — numeric equality: not a number differs from itself, and the two zeros agree.
- `Binary64.text` — fifteen significant digits, positional or with an exponent.
-/

namespace LoxLexer

/-- A double-precision number, given by its bits. -/
structure Binary64 where
  bits : UInt64
deriving DecidableEq, Repr

/-- What a double is, apart from its sign. -/
inductive Magnitude where
  | notANumber
  | infinite
  /-- So many times 2^-1074. -/
  | finite (units : Nat)
deriving DecidableEq, Repr

namespace Binary64

/-- Units in one: 2^1074. -/
def unitsPerOne : Nat := 1 <<< 1074

/-- Bits of the fraction field. -/
def fractionBits : Nat := 52

/-- The exponent field of infinities and of what is not a number. -/
def topExponent : Nat := 2047

/-- The sign bit is set. -/
def negative (x : Binary64) : Bool := 1 <<< 63 ≤ x.bits.toNat

def exponentField (x : Binary64) : Nat := (x.bits.toNat >>> fractionBits) % (1 <<< 11)

def fractionField (x : Binary64) : Nat := x.bits.toNat % (1 <<< fractionBits)

/-- The magnitude that the two fields encode. Exponent fields 0 and 1 share one scale: without and with
    the implicit leading bit. -/
def magnitude (x : Binary64) : Magnitude :=
  if x.exponentField = topExponent then
    if x.fractionField = 0 then .infinite else .notANumber
  else if x.exponentField = 0 then .finite x.fractionField
  else .finite (((1 <<< fractionBits) + x.fractionField) <<< (x.exponentField - 1))

/-! ## Reading a quotient -/

/-- The bits of the non-negative double nearest to `num / den`, as a number; from the pattern of
    infinity on there is no such double.

    The quotient is counted in units. Those below 2^53 are doubles themselves; above, a double keeps the
    top 53 bits. A carry out of the significand runs into the exponent field, which is what it should
    do, so the two fields are added and not joined. -/
def nearestBits (num den : Nat) : Nat :=
  let scaled := num * unitsPerOne
  let shift := (scaled / den).log2 - fractionBits
  (shift <<< fractionBits) + Decimal.roundDiv scaled (den <<< shift)

/-- The double nearest to `num / den`, of two equally near ones the even one. There is none from
    2^1024 - 2^970 on, where the nearest would be infinite. However small the quotient, there is one. -/
def nearest? (num den : Nat) : Option Binary64 :=
  if nearestBits num den < topExponent <<< fractionBits then
    some ⟨(nearestBits num den).toUInt64⟩
  else none

/-! ## Comparing and printing -/

/-- Numeric equality. -/
def equal (x y : Binary64) : Bool :=
  match x.magnitude, y.magnitude with
  | .infinite, .infinite => x.negative == y.negative
  | .finite m, .finite n => m == n && (m == 0 || x.negative == y.negative)
  | _, _ => false

/-- Doubles are printed with fifteen significant digits, positionally from 10^-4 up to below 10^15, and
    an exponent has at least two digits. -/
def layout : Decimal.Layout := ⟨15, -4, 2⟩

/-- The printed form. -/
def text (x : Binary64) : Bytes :=
  ascii (if x.negative then "-" else "") ++
    match x.magnitude with
    | .notANumber => ascii "nan"
    | .infinite => ascii "inf"
    | .finite units => Decimal.quotientText layout units unitsPerOne

end Binary64

end LoxLexer
