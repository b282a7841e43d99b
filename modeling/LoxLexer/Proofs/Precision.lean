import LoxLexer.Proofs.Denoting
import LoxLexer.Proofs.Dumping

/-!
# `LoxLexer.Proofs.Precision` — fifteen digits survive a double

A decimal is rounded when it is read, to 53 binary digits, and once more when it is printed, to fifteen
decimal ones. If the decimal has no more than fifteen digits itself, then the second rounding undoes the
first. Doubles are closer together than decimals of fifteen digits, wherever they are: reading moves a number
by at most one part in 2^53 of it, and its neighbours of fifteen digits are at least one part in 10^15 away,
which is more than twice as much.

One case needs care. Reading may take a power of ten across to the numbers below it, where decimals are ten
times as close. It is rounded up to the power of ten again, because what it was moved by is less than half of
that spacing too.

## Contents
- `digitCount_eq` — how many digits a number has. `HasDigits` — numbers of so many significant digits, and
  `HasDigits.exists_significant` their digits and exponent.
- `exists_ofQuotient` — rounding to significant digits. `exponent_of_near`, `ofQuotient_eq_of_near` — what is
  near enough to a number of as many digits to be rounded to it.
- `Binary64.IsNearest.near` — how near a normal double is to what it was rounded from.
- `Binary64.IsNearest.denoted?_text` — both together, for every number.
- `PrintsDecimals` — what is claimed of a text and its scan; `scan_printsDecimals` proves it of every text.
-/

namespace LoxLexer

namespace Decimal

/-! ## Digits of a number -/

theorem lt_pow_digitCount (n : Nat) : n < 10 ^ digitCount n := by
  fun_induction digitCount n with
  | case1 n hn => simpa using hn
  | case2 n _ ih =>
    rw [Nat.pow_succ]
    omega

theorem pow_digitCount_le {n : Nat} (h : 0 < n) : 10 ^ (digitCount n - 1) ≤ n := by
  fun_induction digitCount n with
  | case1 n _ => exact h
  | case2 n hn ih =>
    have hle := ih (by omega)
    have hpos := digitCount_pos (n / 10)
    rw [show digitCount (n / 10) + 1 - 1 = (digitCount (n / 10) - 1) + 1 by omega, Nat.pow_succ]
    omega

theorem lt_of_ten_pow_lt {m n : Nat} (h : 10 ^ m < 10 ^ n) : m < n :=
  (Nat.pow_lt_pow_iff_right (by decide)).mp h

theorem digitCount_eq {n d : Nat} (hle : 10 ^ d ≤ n) (hlt : n < 10 ^ (d + 1)) : digitCount n = d + 1 := by
  have hpos : 0 < n := (Nat.pow_pos (by decide)).trans_le hle
  have hupper := lt_of_ten_pow_lt ((pow_digitCount_le hpos).trans_lt hlt)
  have hlower := lt_of_ten_pow_lt (hle.trans_lt (lt_pow_digitCount n))
  omega

/-- A number with at most so many significant digits. -/
def HasDigits (count : Nat) (q : ℚ) : Prop := ∃ (m : Nat) (e : ℤ), m < 10 ^ count ∧ q = m * 10 ^ e

/-- Such a number can be given by exactly so many digits, unless it is zero. -/
theorem HasDigits.exists_significant {count : Nat} {q : ℚ} (h : HasDigits count q) (hq : q ≠ 0) :
    ∃ s : Significant, digitCount s.digits = count ∧ s.value = q := by
  obtain ⟨m, e, hm, rfl⟩ := h
  have hpos : 0 < m := by
    rw [Nat.pos_iff_ne_zero]
    rintro rfl
    simp at hq
  have hdigits := digitCount_pos m
  have hle : digitCount m ≤ count := by
    have hlt := lt_of_ten_pow_lt ((pow_digitCount_le hpos).trans_lt hm)
    omega
  -- zeros behind the digits that there are
  have hcount : digitCount (m * 10 ^ (count - digitCount m)) = count := by
    have hlower := Nat.mul_le_mul_right (10 ^ (count - digitCount m)) (pow_digitCount_le hpos)
    have hupper := Nat.mul_lt_mul_of_pos_right (lt_pow_digitCount m)
      (show 0 < 10 ^ (count - digitCount m) from Nat.pow_pos (by decide))
    rw [← Nat.pow_add] at hlower hupper
    rw [digitCount_eq (d := count - 1)]
    · omega
    · rwa [show digitCount m - 1 + (count - digitCount m) = count - 1 by omega] at hlower
    · rwa [show digitCount m + (count - digitCount m) = count - 1 + 1 by omega] at hupper
  refine ⟨⟨m * 10 ^ (count - digitCount m), e + digitCount m - 1⟩, hcount, ?_⟩
  rw [Significant.value, hcount]
  show ((m * 10 ^ (count - digitCount m) : ℕ) : ℚ) * 10 ^ (e + digitCount m - 1 + 1 - count) = m * 10 ^ e
  rw [Nat.cast_mul, Nat.cast_pow, Nat.cast_ofNat, mul_assoc, ← zpow_natCast, ← zpow_add₀ (by norm_num)]
  congr 2
  omega

/-! ## Rounding to significant digits -/

theorem abs_roundDiv_sub_le (num : Nat) {den : Nat} (hden : 0 < den) :
    |(roundDiv num den : ℚ) - num / den| ≤ 1 / 2 := by
  obtain ⟨habove, hbelow⟩ := roundDiv_within_half num hden
  have hpos : (0 : ℚ) < den := Nat.cast_pos.mpr hden
  have habove : (2 * (roundDiv num den * den) : ℚ) ≤ 2 * num + den := by exact_mod_cast habove
  have hbelow : (2 * num : ℚ) ≤ 2 * (roundDiv num den * den) + den := by exact_mod_cast hbelow
  have hsub : (roundDiv num den - num / den : ℚ) = (roundDiv num den * den - num) / den := by
    field_simp
  rw [hsub, abs_div, abs_of_pos hpos, div_le_iff₀ hpos, abs_le]
  constructor <;> linarith

/-- What is within a half of two whole numbers, and nearer to one of them, has found one and the same. -/
theorem eq_of_abs_sub {m n : Nat} {x : ℚ} (hm : |(m : ℚ) - x| ≤ 1 / 2) (hn : |x - n| < 1 / 2) :
    m = n := by
  have hlt : |(m - n : ℚ)| < 1 :=
    calc |(m - n : ℚ)| ≤ |(m : ℚ) - x| + |x - n| := abs_sub_le _ _ _
      _ < 1 := by linarith
  have hint : |(m - n : ℤ)| < 1 := by exact_mod_cast hlt
  rw [Int.abs_lt_one_iff] at hint
  omega

theorem ten_zpow_sub (a b : Nat) : (10 : ℚ) ^ ((a : ℤ) - b) = 10 ^ a / 10 ^ b := by
  rw [zpow_sub₀ (by norm_num), zpow_natCast, zpow_natCast]

/-- A quotient has as many digits in front of the point as the whole number below it. -/
theorem pow_digitCount_div {num den : Nat} (hden : 0 < den) (h : 0 < num / den) :
    (10 ^ (digitCount (num / den) - 1) : ℚ) ≤ num / den ∧
      (num / den : ℚ) < 10 ^ digitCount (num / den) := by
  have hpos : (0 : ℚ) < den := Nat.cast_pos.mpr hden
  constructor
  · rw [le_div_iff₀ hpos]
    exact_mod_cast (Nat.le_div_iff_mul_le hden).mp (pow_digitCount_le h)
  · rw [div_lt_iff₀ hpos]
    exact_mod_cast (Nat.div_lt_iff_lt_mul hden).mp (lt_pow_digitCount (num / den))

/-- **What rounding computes**: the decimal exponent of the quotient, and the whole number nearest to the
    digits at this exponent, where a carry out of the top digit becomes the next power of ten. -/
theorem exists_ofQuotient {precision num den : Nat} (hnum : 0 < num) (hden : 0 < den) :
    ∃ (e : ℤ) (rounded : Nat), Significant.ofQuotient precision num den =
        (if rounded = 10 ^ precision then ⟨10 ^ (precision - 1), e + 1⟩ else ⟨rounded, e⟩) ∧
      (10 ^ e : ℚ) ≤ num / den ∧ (num / den : ℚ) < 10 ^ (e + 1) ∧
      |(rounded : ℚ) - num / den * 10 ^ ((precision : ℤ) - 1 - e)| ≤ 1 / 2 := by
  generalize hscale : digitCount den + precision = scale
  -- so many digits in front of the point that one rounding leaves enough
  have hlong : 10 ^ precision ≤ num * 10 ^ scale / den := by
    rw [Nat.le_div_iff_mul_le hden, ← hscale, Nat.pow_add, Nat.mul_comm]
    calc den * 10 ^ precision ≤ 10 ^ digitCount den * 10 ^ precision :=
          Nat.mul_le_mul_right _ (lt_pow_digitCount den).le
      _ ≤ num * (10 ^ digitCount den * 10 ^ precision) := Nat.le_mul_of_pos_left _ hnum
  have hcount := lt_of_ten_pow_lt (hlong.trans_lt (lt_pow_digitCount (num * 10 ^ scale / den)))
  obtain ⟨hlower, hupper⟩ := pow_digitCount_div hden ((Nat.pow_pos (by decide)).trans_le hlong)
  generalize hdigits : digitCount (num * 10 ^ scale / den) = count at hcount hlower hupper
  push_cast at hlower hupper
  have hpow : (0 : ℚ) < 10 ^ scale := by positivity
  have hquotient : (num / den : ℚ) = num * 10 ^ scale / den / 10 ^ scale := by field_simp
  refine ⟨(count : ℤ) - 1 - scale, roundDiv (num * 10 ^ scale) (den * 10 ^ (count - precision)),
    ?_, ?_, ?_, ?_⟩
  · rw [← hdigits, ← hscale]
    rfl
  · rw [show (count : ℤ) - 1 - scale = ((count - 1 : ℕ) : ℤ) - scale by omega, ten_zpow_sub, hquotient]
    exact div_le_div_of_nonneg_right hlower hpow.le
  · rw [show (count : ℤ) - 1 - scale + 1 = (count : ℤ) - scale by omega, ten_zpow_sub, hquotient]
    exact div_lt_div_of_pos_right hupper hpow
  · have hround := abs_roundDiv_sub_le (num * 10 ^ scale)
      (show 0 < den * 10 ^ (count - precision) from Nat.mul_pos hden (Nat.pow_pos (by decide)))
    rw [show (precision : ℤ) - 1 - ((count : ℤ) - 1 - scale) = (scale : ℤ) - (count - precision : ℕ) by
      omega, ten_zpow_sub, ← mul_div_assoc, div_mul_eq_mul_div, div_div]
    exact_mod_cast hround

/-- What is near enough, in proportion, to a number is near enough to it at any scale where the number has
    no more digits. -/
theorem abs_sub_mul_lt {precision : Nat} {v w scale : ℚ} (hscale : 0 < scale)
    (h : 2 * 10 ^ precision * |v - w| < w) (hw : w * scale ≤ 10 ^ precision) :
    |v - w| * scale < 1 / 2 := by
  have hpow : (0 : ℚ) < 10 ^ precision := by positivity
  refine lt_of_mul_lt_mul_left (?_ : 2 * 10 ^ precision * (|v - w| * scale) < _) (by positivity)
  calc 2 * 10 ^ precision * (|v - w| * scale) = 2 * 10 ^ precision * |v - w| * scale :=
        (mul_assoc _ _ _).symm
    _ < w * scale := mul_lt_mul_of_pos_right h hscale
    _ ≤ 2 * 10 ^ precision * (1 / 2) := by linarith

section Near

variable {n digits : Nat} {k e : ℤ} {v : ℚ}

/-- What the last of `n + 1` digits counts, where the first counts `10 ^ k`. -/
def unit (n : Nat) (k : ℤ) : ℚ := 10 ^ (k - n)

theorem unit_pos (n : Nat) (k : ℤ) : 0 < unit n k := zpow_pos (by norm_num) _

theorem ten_zpow_eq (n : Nat) (k : ℤ) : (10 : ℚ) ^ k = 10 ^ n * unit n k := by
  rw [unit, ← zpow_natCast, ← zpow_add₀ (by norm_num)]
  congr 1
  omega

/-- **Near a number of `n + 1` digits** the decimal exponent is that of the number, or one less in front of a
    power of ten. -/
theorem exponent_of_near (hlower : 10 ^ n ≤ digits) (hupper : digits < 10 ^ (n + 1))
    (hnear : |v - digits * unit n k| < unit n k / 2) (hle : 10 ^ e ≤ v) (hlt : v < 10 ^ (e + 1)) :
    e = k ∨ (e + 1 = k ∧ digits = 10 ^ n) := by
  have hunit := unit_pos n k
  obtain ⟨hbelow, habove⟩ := abs_lt.mp hnear
  have hleast := mul_le_mul_of_nonneg_right (show (10 ^ n : ℚ) ≤ digits by exact_mod_cast hlower) hunit.le
  have hmost := mul_le_mul_of_nonneg_right
    (show ((digits + 1 : ℕ) : ℚ) ≤ 10 ^ (n + 1) by exact_mod_cast hupper) hunit.le
  rw [← ten_zpow_eq] at hleast
  rw [pow_succ, mul_right_comm, ← ten_zpow_eq, ← zpow_add_one₀ (by norm_num)] at hmost
  push_cast at hmost
  -- one digit of the number is less than all of it
  have hone : unit n k ≤ 10 ^ k := by
    rw [ten_zpow_eq n]
    exact le_mul_of_one_le_left hunit.le (one_le_pow₀ (by norm_num))
  have hover : (10 : ℚ) ^ e < 10 ^ (k + 1) := by linarith
  have hunder : (10 : ℚ) ^ (k - 1) < 10 ^ (e + 1) := by
    have hten : (10 : ℚ) ^ k = 10 ^ (k - 1) * 10 := by rw [← zpow_add_one₀ (by norm_num), sub_add_cancel]
    linarith
  rw [zpow_lt_zpow_iff_right₀ (by norm_num)] at hover hunder
  rcases (show e = k ∨ e + 1 = k by omega) with heq | hcarry
  · exact Or.inl heq
  · refine Or.inr ⟨hcarry, ?_⟩
    by_contra hne
    have hnext := mul_le_mul_of_nonneg_right
      (show ((10 ^ n + 1 : ℕ) : ℚ) ≤ digits by exact_mod_cast Nat.lt_of_le_of_ne hlower (Ne.symm hne))
      hunit.le
    rw [hcarry, ten_zpow_eq n] at hlt
    push_cast at hnext
    linarith

theorem ofQuotient_eq {num den : Nat} (hden : 0 < den) (hlower : 10 ^ n ≤ digits)
    (hupper : digits < 10 ^ (n + 1))
    (h : 2 * 10 ^ (n + 1) * |(num / den : ℚ) - digits * unit n k| < digits * unit n k) :
    Significant.ofQuotient (n + 1) num den = ⟨digits, k⟩ := by
  have hunit := unit_pos n k
  have hnear : |(num / den : ℚ) - digits * unit n k| < unit n k / 2 := by
    have hfew : digits * unit n k * (unit n k)⁻¹ ≤ 10 ^ (n + 1) := by
      rw [mul_inv_cancel_right₀ hunit.ne']
      exact_mod_cast hupper.le
    have hhalf := (mul_inv_lt_iff₀ hunit).mp (abs_sub_mul_lt (inv_pos.mpr hunit) h hfew)
    linarith
  have hnum : 0 < num := by
    have hdigits : 0 < digits := (Nat.pow_pos (by decide)).trans_le hlower
    rw [Nat.pos_iff_ne_zero]
    rintro rfl
    have hone := mul_le_mul_of_nonneg_right (Nat.one_le_cast.mpr hdigits : (1 : ℚ) ≤ digits) hunit.le
    rw [Nat.cast_zero, zero_div, zero_sub, abs_neg, abs_of_pos (by linarith)] at hnear
    linarith
  obtain ⟨e, rounded, heq, hle, hlt, hround⟩ := @exists_ofQuotient (n + 1) _ _ hnum hden
  -- what is rounded is nearer than a half to the digits of the number, at the exponent found
  have hfound : ∀ {whole : Nat}, whole ≤ 10 ^ (n + 1) →
      digits * unit n k * 10 ^ (((n + 1 : ℕ) : ℤ) - 1 - e) = whole → rounded = whole := by
    intro whole hwhole hscaled
    have hscale : (0 : ℚ) < 10 ^ (((n + 1 : ℕ) : ℤ) - 1 - e) := zpow_pos (by norm_num) _
    refine eq_of_abs_sub hround ?_
    rw [← hscaled, ← sub_mul, abs_mul, abs_of_pos hscale]
    exact abs_sub_mul_lt hscale h (hscaled ▸ by exact_mod_cast hwhole)
  rw [heq]
  rcases exponent_of_near hlower hupper hnear hle hlt with rfl | ⟨hcarry, hpower⟩
  · have hscaled : (digits * unit n e * 10 ^ (((n + 1 : ℕ) : ℤ) - 1 - e) : ℚ) = digits := by
      rw [unit, mul_assoc, ← zpow_add₀ (by norm_num), show e - n + (((n + 1 : ℕ) : ℤ) - 1 - e) = 0 by omega,
        zpow_zero, mul_one]
    obtain rfl := hfound hupper.le hscaled
    rw [if_neg hupper.ne]
  · -- the number is a power of ten, and a carry leads to it from below
    have hscaled : (digits * unit n k * 10 ^ (((n + 1 : ℕ) : ℤ) - 1 - e) : ℚ) = (10 ^ (n + 1) : ℕ) := by
      rw [hpower, Nat.cast_pow, Nat.cast_pow, Nat.cast_ofNat, ← ten_zpow_eq, ← zpow_natCast,
        ← zpow_add₀ (by norm_num)]
      congr 1
      omega
    rw [if_pos (hfound (Nat.le_refl _) hscaled), hcarry, hpower, Nat.add_sub_cancel]

/-- **A number of so many digits is found again** by rounding whatever is near enough to it. -/
theorem ofQuotient_eq_of_near {num den : Nat} {s : Significant} (hden : 0 < den)
    (h : 2 * 10 ^ digitCount s.digits * |(num / den : ℚ) - s.value| < s.value) :
    Significant.ofQuotient (digitCount s.digits) num den = s := by
  obtain ⟨digits, k⟩ := s
  have hcount := digitCount_pos digits
  have hupper := lt_pow_digitCount digits
  rw [Significant.value] at h
  dsimp only at h ⊢
  have hdigits : 0 < digits := by
    rw [Nat.pos_iff_ne_zero]
    rintro rfl
    rw [Nat.cast_zero, zero_mul] at h
    exact absurd h (not_lt.mpr (by positivity))
  have hlower := pow_digitCount_le hdigits
  generalize digitCount digits = precision at *
  obtain ⟨n, rfl⟩ : ∃ n, precision = n + 1 := ⟨precision - 1, by omega⟩
  rw [show k + 1 - ((n + 1 : ℕ) : ℤ) = k - n by omega, ← unit] at h
  exact ofQuotient_eq hden hlower hupper h

end Near

end Decimal

namespace Binary64

/-! ## Rounding to a double -/

/-- The least positive number from which on doubles have all their binary digits. -/
def leastNormal : ℚ := 1 / 2 ^ 1022

/-- From the least normal number on, there are 53 binary digits in front of the point of the units. -/
theorem mul_le_of_le_div {num den one a : Nat} (hden : 0 < den) (h : 1 / 2 ^ a ≤ (num / den : ℚ))
    (hone : one = 1 <<< (a + 52)) : 2 ^ 52 * den ≤ num * one := by
  have hpos : (0 : ℚ) < den := Nat.cast_pos.mpr hden
  rw [div_le_div_iff₀ (by positivity) hpos, one_mul] at h
  have hle : den ≤ num * 2 ^ a := by exact_mod_cast h
  rw [hone, Nat.one_shiftLeft, Nat.pow_add]
  calc 2 ^ 52 * den = den * 2 ^ 52 := Nat.mul_comm _ _
    _ ≤ num * 2 ^ a * 2 ^ 52 := Nat.mul_le_mul_right _ hle
    _ = num * (2 ^ a * 2 ^ 52) := Nat.mul_assoc _ _ _

/-- Half a step is at most one part in 2^53 of a number that has 53 binary digits. -/
theorem Rounded.near {num den s significand : Nat} (hden : 0 < den)
    (h : Rounded (num * unitsPerOne) den s significand) (hnormal : leastNormal ≤ (num / den : ℚ)) :
    2 ^ 53 * |((significand * 2 ^ s : Nat) / unitsPerOne : ℚ) - num / den| ≤ num / den := by
  have hhalf := Decimal.two_mul_distance_roundDiv_le (num * unitsPerOne) (step_pos hden s)
  rw [← h.rounded, Decimal.distance_mul] at hhalf
  have hbits : 2 ^ 52 * (den * 2 ^ s) ≤ num * unitsPerOne := by
    rcases h.above with rfl | habove
    · rw [Nat.pow_zero, Nat.mul_one]
      exact mul_le_of_le_div hden hnormal (by rw [unitsPerOne])
    · exact habove
  have hscaled : 2 ^ 53 * Decimal.distance (num * unitsPerOne) den (significand * 2 ^ s) ≤
      num * unitsPerOne := by omega
  have hone : (0 : ℚ) < unitsPerOne := Nat.cast_pos.mpr unitsPerOne_pos
  have hwidth : (0 : ℚ) < unitsPerOne * den := mul_pos hone (Nat.cast_pos.mpr hden)
  have hexact : (num / den : ℚ) = num * unitsPerOne / (unitsPerOne * den) := by field_simp
  rw [abs_sub_eq hden, hexact, ← mul_div_assoc]
  exact div_le_div_of_nonneg_right (by exact_mod_cast hscaled) hwidth.le

theorem exists_nat_div {q : ℚ} (h : 0 ≤ q) : ∃ num den : Nat, 0 < den ∧ q = num / den := by
  refine ⟨q.num.toNat, q.den, q.den_pos, ?_⟩
  rw [← Int.cast_natCast, Int.toNat_of_nonneg (Rat.num_nonneg.mpr h), Rat.num_div_den]

variable {x : Binary64} {q v : ℚ}

/-- **A normal number moves by at most one part in 2^53** when it is rounded. -/
theorem IsNearest.near (h : IsNearest q v x) (hnormal : leastNormal ≤ q) (hrange : q < overflow) :
    2 ^ 53 * |v - q| ≤ q := by
  have hpos : 0 ≤ q := le_trans (by rw [leastNormal]; positivity) hnormal
  obtain ⟨num, den, hden, rfl⟩ := exists_nat_div hpos
  obtain ⟨s, significand, hbits, hrounded⟩ := exists_rounded num hden
  have htop : s * 2 ^ 52 + significand < 2047 * 2 ^ 52 := hbits ▸ (lt_overflow_iff hden).mp hrange
  have hnearest := h.nearest _ _ (hrounded.isNearest hden htop).2.value
  have hnear := hrounded.near hden hnormal
  linarith

/-- Zero is a double. -/
theorem IsNearest.eq_zero (h : IsNearest 0 v x) : v = 0 := by
  have hzero : value? ⟨0⟩ = some 0 := by
    have hvalue : value? ⟨0⟩ = some ((0 : ℕ) / unitsPerOne : ℚ) := rfl
    rw [hvalue, Nat.cast_zero, zero_div]
  have hle := h.nearest _ _ hzero
  simpa using hle

/-- What is printed for a number that is not negative. -/
theorem exists_text (hvalue : x.value? = some v) (hnegative : x.negative = false) :
    ∃ units : Nat, v = units / unitsPerOne ∧
      x.text = Decimal.quotientText layout units unitsPerOne := by
  unfold value? at hvalue
  split at hvalue
  · rename_i units hmagnitude
    simp only [hnegative, Bool.false_eq_true, if_false, Option.some.injEq] at hvalue
    refine ⟨units, hvalue.symm, ?_⟩
    rw [text, hmagnitude, hnegative]
    rfl
  · cases hvalue

/-- **Fifteen digits survive**: a number of so many digits, in the range where doubles have all their binary
    digits, is printed as itself for the double that is nearest to it. -/
theorem IsNearest.denoted?_text (h : IsNearest q v x) (hnegative : x.negative = false)
    (hnormal : q = 0 ∨ leastNormal ≤ q) (hrange : q < overflow) (hdigits : Decimal.HasDigits 15 q) :
    Decimal.denoted? x.text = some q := by
  obtain ⟨units, hunits, htext⟩ := exists_text h.value hnegative
  rw [htext, Decimal.quotientText]
  by_cases hzero : q = 0
  · subst hzero
    have hone : (unitsPerOne : ℚ) ≠ 0 := Nat.cast_ne_zero.mpr unitsPerOne_pos.ne'
    rw [h.eq_zero, eq_comm, div_eq_zero_iff, or_iff_left hone, Nat.cast_eq_zero] at hunits
    rw [if_pos hunits]
    decide +kernel
  · have hnear := h.near (hnormal.resolve_left hzero) hrange
    have hpos : 0 < q := lt_of_lt_of_le (by rw [leastNormal]; positivity) (hnormal.resolve_left hzero)
    obtain ⟨s, hcount, rfl⟩ := hdigits.exists_significant hzero
    have hclose : 2 * 10 ^ 15 * |(units / unitsPerOne : ℚ) - s.value| < s.value := by
      rw [← hunits]
      linarith [abs_nonneg (v - s.value)]
    have hne : units ≠ 0 := by
      rintro rfl
      rw [Nat.cast_zero, zero_div, zero_sub, abs_neg, abs_of_pos hpos] at hclose
      linarith
    have hfound := Decimal.ofQuotient_eq_of_near unitsPerOne_pos (hcount ▸ hclose)
    rw [hcount] at hfound
    rw [if_neg hne, show layout.precision = 15 from rfl, hfound]
    exact Decimal.Significant.denoted?_text hcount

end Binary64

/-! ## Floats of a scan -/

/-- A token over a decimal is what the decimal is read as. -/
theorem DecimalAt.of_mem_tokens {source : Bytes} {t : Token} {whole fraction rest : List Glyph}
    {point : Glyph} (h : DecimalAt source t.span whole point fraction rest)
    (ht : t ∈ (scan source).tokens) : FitsDecimal whole point fraction ∧ ∃ x v,
      t.kind = .float ∧ t.payload = .float x ∧ x.negative = false ∧
        x.IsNearest (decimalValue whole fraction) v := by
  obtain ⟨placed, hmem, hspan, hform, hbytes⟩ := h.placed
  have hlength : 0 < t.span.length := by
    have hpoint : 0 < point.bytes.length := Nat.succ_pos _
    rw [← h.reads.width, spell_append, spell_cons, List.length_append, List.length_append]
    omega
  have hover : t ∈ (scan source).tokensOver placed.span := by
    rw [hspan]
    exact List.mem_filter.mpr ⟨ht, Span.overlaps_self hlength⟩
  obtain ⟨hfitting, hother⟩ := float?_spell h.reads.decoded h.whole h.point h.fraction
  by_cases hfits : FitsDecimal whole point fraction
  · obtain ⟨x, v, hread, hnegative, hnearest⟩ := hfitting hfits
    have hreading : placed.piece.reading = .token .float (.float x) := by
      simp only [Piece.reading, hform, hbytes, hread]
    rw [(accepts_of_reading hmem hreading).token, List.mem_singleton] at hover
    exact ⟨hfits, x, v, by rw [hover], by rw [hover], hnegative, hnearest⟩
  · have hreading : placed.piece.reading =
        .faulty (.unreadableFloat (spell (whole ++ point :: fraction))) := by
      simp only [Piece.reading, hform, hbytes, hother hfits]
    rw [(rejects_of_reading hmem hreading).token] at hover
    exact absurd hover (List.not_mem_nil)

/-- **Short decimals are printed as what they denote.** They have at most fifteen significant digits, and are
    zero or not below the least normal double. -/
structure PrintsDecimals (source : Bytes) (s : Scan) : Prop where
  /-- Every float is a decimal of the text, in characters of one byte each. -/
  literal : ∀ t ∈ s.tokens, t.kind = .float → ∃ whole point fraction rest,
    DecimalAt source t.span whole point fraction rest ∧ ∀ g ∈ whole ++ point :: fraction, g.width = 1
  printed : ∀ t ∈ s.tokens, ∀ {whole point fraction rest},
    DecimalAt source t.span whole point fraction rest →
      decimalValue whole fraction = 0 ∨ Binary64.leastNormal ≤ decimalValue whole fraction →
        Decimal.HasDigits 15 (decimalValue whole fraction) → ∃ number,
          t.summary? = some (summaryWith t (ascii "(" ++ number ++ ascii ")")) ∧
            Decimal.denoted? number = some (decimalValue whole fraction)

/-- **Reading and printing lose nothing** of a decimal with so few digits. -/
theorem scan_printsDecimals (source : Bytes) : PrintsDecimals source (scan source) := by
  constructor
  · intro t ht hkind
    obtain ⟨whole, point, fraction, rest, _, _, hdecimal, hfits, -⟩ :=
      exists_decimal_of_mem_tokens ht hkind
    exact ⟨whole, point, fraction, rest, hdecimal, hfits.1⟩
  · intro t ht whole point fraction rest hdecimal hnormal hdigits
    obtain ⟨hfits, x, v, hkind, hpayload, hnegative, hnearest⟩ := hdecimal.of_mem_tokens ht
    refine ⟨x.text, ?_, hnearest.denoted?_text hnegative hnormal hfits.2 hdigits⟩
    obtain ⟨kind, span, payload⟩ := t
    obtain rfl : kind = .float := hkind
    obtain rfl : payload = .float x := hpayload
    rfl

/-- Trailing zeros are dropped, and small numbers have an exponent. -/
example : tokenDump (scan (ascii "0.000010")).tokens = ascii "FloatLiteral(1e-05) @0+8\nEof @8+0\n" := by
  decide +kernel

end LoxLexer
