/-!
# `LoxLexer.Decimal.Rounding` — the nearest whole number to a quotient

`roundDiv num den` is the whole number nearest to `num / den`; of two equally near ones it is the even
one. Two laws pin it down: it is within half a unit, and a tie is even.
-/

namespace LoxLexer.Decimal

/-- `num / den` rounded to the nearest whole number, a half to the even neighbour. -/
def roundDiv (num den : Nat) : Nat :=
  let below := num / den
  let twice := 2 * (num % den)
  if twice < den then below
  else if den < twice then below + 1
  else below + below % 2

/-- The rounded quotient is within half a unit of the exact one, from above and from below. -/
theorem roundDiv_within_half (num : Nat) {den : Nat} (hden : 0 < den) :
    2 * (roundDiv num den * den) ≤ 2 * num + den ∧
      2 * num ≤ 2 * (roundDiv num den * den) + den := by
  have hdiv := Nat.div_add_mod num den
  rw [Nat.mul_comm] at hdiv
  have hlt := Nat.mod_lt num hden
  simp only [roundDiv]
  split
  · omega
  · split
    · rw [Nat.add_mul, Nat.one_mul]; omega
    · rcases Nat.mod_two_eq_zero_or_one (num / den) with h | h <;>
        simp only [h, Nat.add_zero, Nat.add_mul, Nat.one_mul] <;> omega

/-- A quotient half way between two whole numbers goes to the even one. -/
theorem roundDiv_even_of_tie {num den : Nat} (htie : 2 * (num % den) = den) :
    roundDiv num den % 2 = 0 := by
  simp only [roundDiv, htie, Nat.lt_irrefl, if_false]
  omega

end LoxLexer.Decimal
