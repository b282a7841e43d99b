import LoxLexer.Bytes

/-!
# `LoxLexer.Decimal.Numeral` — natural numbers written in base ten

- `numeral` — the digits of a number, no zero in front.
- `signed` — the same for an integer, with a minus sign where it is negative.
- `digitCount` — how many digits a number has, by division alone; `length_numeral` says that it agrees
  with what is written.
- `value` — the number that a string of digits denotes, leading zeros allowed.
-/

namespace LoxLexer.Decimal

/-- The byte of the digit `d`, for `d < 10`. -/
def digit (d : Nat) : UInt8 := ('0'.toNat + d).toUInt8

/-- The byte is one of the ten ASCII digits. -/
def isDigit (b : UInt8) : Bool := digit 0 ≤ b && b ≤ digit 9

/-- The decimal digits of a number, most significant first. -/
def numeral (n : Nat) : Bytes :=
  if n < 10 then [digit n] else numeral (n / 10) ++ [digit (n % 10)]

/-- The decimal digits of an integer, behind a minus sign if it is negative. -/
def signed (n : Int) : Bytes := (if n < 0 then ascii "-" else []) ++ numeral n.natAbs

/-- How many decimal digits a number has. -/
def digitCount (n : Nat) : Nat := if n < 10 then 1 else digitCount (n / 10) + 1

/-- The number that a string of decimal digits denotes. -/
def value (digits : Bytes) : Nat :=
  digits.foldl (fun n b => 10 * n + (b.toNat - '0'.toNat)) 0

theorem length_numeral (n : Nat) : (numeral n).length = digitCount n := by
  fun_induction numeral n with
  | case1 n h => rw [digitCount, if_pos h]; rfl
  | case2 n h ih => rw [digitCount, if_neg h, List.length_append, ih, List.length_singleton]

/-- Nothing but digits is written. -/
theorem isDigit_of_mem_numeral {n : Nat} {b : UInt8} (h : b ∈ numeral n) : isDigit b = true := by
  have hdigit : ∀ d < 10, isDigit (digit d) = true := by decide
  fun_induction numeral n with
  | case1 n hn =>
    rw [List.mem_singleton.mp h]
    exact hdigit n hn
  | case2 n _ ih =>
    rcases List.mem_append.mp h with hfront | hlast
    · exact ih hfront
    · rw [List.mem_singleton.mp hlast]
      exact hdigit (n % 10) (Nat.mod_lt _ (by decide))

theorem not_mem_numeral {b : UInt8} (h : isDigit b = false) (n : Nat) : b ∉ numeral n := by
  intro hmem
  rw [isDigit_of_mem_numeral hmem] at h
  cases h

theorem digitCount_pos (n : Nat) : 0 < digitCount n := by
  rw [digitCount]
  split <;> omega

end LoxLexer.Decimal
