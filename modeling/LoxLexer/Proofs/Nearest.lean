import LoxLexer.Binary64
import Mathlib.Algebra.Order.Field.Basic
import Mathlib.Algebra.Order.Field.Rat
import Mathlib.Data.Rat.Cast.Order
import Mathlib.Tactic.FieldSimp
import Mathlib.Tactic.Linarith
import Mathlib.Tactic.Ring

/-!
# `LoxLexer.Proofs.Nearest` — the double read for a quotient is the nearest one

Every finite double is a number of units with at most 53 binary digits, and then zeros. Rounding keeps 53
digits of the exact number of units, so what is rounded to lies on the grid of doubles where the quotient is.
Doubles of a coarser grid lie on this one too. Those of a finer grid all lie below the least number with 53
digits on this one, and so does not the quotient: none of them is nearer.

Distances are compared as whole numbers, and carried over to quotients at the end.

## Contents
- `Decimal.distance`, `Decimal.distance_roundDiv_le`, `Decimal.roundDiv_even` — whole numbers near a quotient.
- `Rounded`, `exists_rounded` — what `nearestBits` computes: a shift, and a significand. `Rounded.nearest`
  is the argument above, `Rounded.lt_iff` says when rounding runs past the greatest double, and
  `Rounded.magnitude` that the bits mean what was rounded to.
- `value?`, `IsNearest` — the number that a double is, and rounding to nearest with ties to even.
- `exists_nearest`, `nearest?_eq_none` — `nearest?` rounds to nearest up to `overflow`, and gives up from
  there on.
-/

namespace LoxLexer

/-! ## The whole numbers near a quotient -/

namespace Decimal

/-- How far the whole number `k` is from `num / den`, counted in parts of `den`. -/
def distance (num den k : Nat) : Nat := (k * den - num : Int).natAbs

/-- A rounded quotient is less than a half away from the exact one, or even. -/
theorem roundDiv_lt_half_or_even (num : Nat) {den : Nat} (hden : 0 < den) :
    2 * distance num den (roundDiv num den) < den ∨ roundDiv num den % 2 = 0 := by
  by_cases htie : 2 * (num % den) = den
  · exact Or.inr (roundDiv_even_of_tie htie)
  · left
    have hdiv := Nat.div_add_mod' num den
    have hlt := Nat.mod_lt num hden
    unfold distance roundDiv
    dsimp only
    split
    · omega
    · split
      · rw [Nat.cast_add, Nat.cast_one, add_mul, one_mul]
        omega
      · omega

theorem two_mul_distance_roundDiv_le (num : Nat) {den : Nat} (hden : 0 < den) :
    2 * distance num den (roundDiv num den) ≤ den := by
  obtain ⟨habove, hbelow⟩ := roundDiv_within_half num hden
  unfold distance
  omega

/-- Two whole numbers are at least one apart, by way of any quotient. -/
theorem le_distance_add (num den : Nat) {j k : Nat} (h : j ≠ k) :
    den ≤ distance num den j + distance num den k := by
  unfold distance
  rcases Nat.lt_or_gt_of_ne h with h | h
  · have hstep := Nat.mul_le_mul_right den h
    rw [Nat.succ_mul] at hstep
    omega
  · have hstep := Nat.mul_le_mul_right den h
    rw [Nat.succ_mul] at hstep
    omega

/-- **The rounded quotient is nearest.** -/
theorem distance_roundDiv_le (num : Nat) {den : Nat} (hden : 0 < den) (k : Nat) :
    distance num den (roundDiv num den) ≤ distance num den k := by
  by_cases hk : roundDiv num den = k
  · rw [hk]
  · have hhalf := two_mul_distance_roundDiv_le num hden
    have hsum := le_distance_add num den hk
    omega

/-- Where another one is as near, it is even. -/
theorem roundDiv_even {num den k : Nat} (hden : 0 < den) (hk : k ≠ roundDiv num den)
    (h : distance num den k = distance num den (roundDiv num den)) : roundDiv num den % 2 = 0 := by
  have hsum := le_distance_add num den hk
  rcases roundDiv_lt_half_or_even num hden with hhalf | heven
  · omega
  · exact heven

/-- Whole numbers of steps are whole numbers. -/
theorem distance_mul (num den step k : Nat) :
    distance num (den * step) k = distance num den (k * step) := by
  unfold distance
  congr 2
  push_cast
  ring

end Decimal

namespace Binary64

/-! ## Keeping 53 binary digits -/

/-- `scaled / den` is rounded to a whole number of steps of `2 ^ s`, so many that 53 binary digits are kept,
    or all of them. -/
structure Rounded (scaled den s significand : Nat) : Prop where
  rounded : significand = Decimal.roundDiv scaled (den * 2 ^ s)
  below : scaled < 2 ^ 53 * (den * 2 ^ s)
  above : s = 0 ∨ 2 ^ 52 * (den * 2 ^ s) ≤ scaled

/-- A number with all its binary digits dropped but 53. -/
theorem log2_sub_bounds (n : Nat) : n < 2 ^ 53 * 2 ^ (n.log2 - 52) ∧
    (n.log2 - 52 = 0 ∨ 2 ^ 52 * 2 ^ (n.log2 - 52) ≤ n) := by
  rw [← Nat.pow_add, ← Nat.pow_add]
  constructor
  · have hle : 2 ^ (n.log2 + 1) ≤ 2 ^ (53 + (n.log2 - 52)) := Nat.pow_le_pow_right (by decide) (by omega)
    exact Nat.lt_log2_self.trans_le hle
  · by_cases hshift : n.log2 - 52 = 0
    · exact Or.inl hshift
    · right
      have hne : n ≠ 0 := by
        rintro rfl
        exact hshift rfl
      rw [show 52 + (n.log2 - 52) = n.log2 by omega]
      exact Nat.log2_self_le hne

/-- The bits of a double are the shift and the significand, added and not joined. -/
theorem exists_rounded (num : Nat) {den : Nat} (hden : 0 < den) : ∃ s significand,
    nearestBits num den = s * 2 ^ 52 + significand ∧
      Rounded (num * unitsPerOne) den s significand := by
  obtain ⟨hbelow, habove⟩ := log2_sub_bounds (num * unitsPerOne / den)
  refine ⟨(num * unitsPerOne / den).log2 - 52, _, ?_, rfl, ?_, habove.imp_right ?_⟩
  · simp only [nearestBits, fractionBits, Nat.shiftLeft_eq]
  · have hlt := (Nat.div_lt_iff_lt_mul hden).mp hbelow
    rwa [Nat.mul_assoc, Nat.mul_comm _ den] at hlt
  · intro hle
    have hle := (Nat.le_div_iff_mul_le hden).mp hle
    rwa [Nat.mul_assoc, Nat.mul_comm _ den] at hle

namespace Rounded

variable {scaled den s significand : Nat}

theorem step_pos (hden : 0 < den) (s : Nat) : 0 < den * 2 ^ s :=
  Nat.mul_pos hden (Nat.two_pow_pos s)

/-- A significand has at most 53 bits, or is the next power of two. -/
theorem significand_le (h : Rounded scaled den s significand) (hden : 0 < den) :
    significand ≤ 2 ^ 53 := by
  have hstep := step_pos hden s
  have hround := (Decimal.roundDiv_within_half scaled hstep).1
  rw [← h.rounded] at hround
  have hbelow := h.below
  by_contra hlt
  have hnext := Nat.mul_le_mul_right (den * 2 ^ s) (Nat.lt_of_not_le hlt)
  rw [Nat.succ_mul] at hnext
  omega

/-- Where bits are dropped, none of the 53 that are kept is missing. -/
theorem le_significand (h : Rounded scaled den s significand) (hden : 0 < den) :
    s = 0 ∨ 2 ^ 52 ≤ significand := by
  rcases h.above with hzero | habove
  · exact Or.inl hzero
  · right
    have hstep := step_pos hden s
    have hround := (Decimal.roundDiv_within_half scaled hstep).2
    rw [← h.rounded] at hround
    by_contra hlt
    have hnext := Nat.mul_le_mul_right (den * 2 ^ s) (Nat.lt_of_not_le hlt)
    rw [Nat.succ_mul] at hnext
    omega

/-- A number of 53 binary digits lies below everything that has as many left on a coarser grid. -/
theorem mul_lt_of_lt {sig e : Nat} (hsig : sig < 2 ^ 53) (he : e < s) (hden : 0 < den) :
    sig * 2 ^ e * den < 2 ^ 52 * (den * 2 ^ s) := by
  have hstep : 2 ^ 53 * 2 ^ e ≤ 2 ^ 52 * 2 ^ s := by
    rw [← Nat.pow_add, ← Nat.pow_add]
    exact Nat.pow_le_pow_right (by decide) (by omega)
  have hlt : sig * 2 ^ e < 2 ^ 52 * 2 ^ s :=
    (Nat.mul_lt_mul_of_pos_right hsig (Nat.two_pow_pos e)).trans_le hstep
  calc sig * 2 ^ e * den < 2 ^ 52 * 2 ^ s * den := Nat.mul_lt_mul_of_pos_right hlt hden
    _ = 2 ^ 52 * (den * 2 ^ s) := by ring

/-- **Nothing of 53 binary digits is nearer**, wherever its point is, and where something else is as near,
    the rounded significand is even. -/
theorem nearest (h : Rounded scaled den s significand) (hden : 0 < den) {sig : Nat}
    (hsig : sig < 2 ^ 53) (e : Nat) :
    Decimal.distance scaled den (significand * 2 ^ s) ≤ Decimal.distance scaled den (sig * 2 ^ e) ∧
      (sig * 2 ^ e ≠ significand * 2 ^ s →
        Decimal.distance scaled den (sig * 2 ^ e) = Decimal.distance scaled den (significand * 2 ^ s) →
        significand % 2 = 0) := by
  obtain ⟨rfl, -, habove⟩ := h
  have hstep := step_pos hden s
  rw [← Decimal.distance_mul]
  rcases Nat.lt_or_ge e s with he | he
  · -- finer than a step, so further down than the least significand, which is not nearer than the rounded
    have hlt := mul_lt_of_lt hsig he hden
    have habove := habove.resolve_left (by omega)
    have hleast := Decimal.distance_roundDiv_le scaled hstep (2 ^ 52)
    have hstrict : Decimal.distance scaled (den * 2 ^ s) (2 ^ 52) <
        Decimal.distance scaled den (sig * 2 ^ e) := by
      generalize sig * 2 ^ e = k at *
      unfold Decimal.distance
      omega
    omega
  · obtain ⟨k, rfl⟩ := Nat.exists_eq_add_of_le he
    have hwhole : sig * 2 ^ (s + k) = sig * 2 ^ k * 2 ^ s := by ring
    rw [hwhole, ← Decimal.distance_mul]
    refine ⟨Decimal.distance_roundDiv_le scaled hstep _, fun hne heq => ?_⟩
    exact Decimal.roundDiv_even hstep (fun hsame => hne (by rw [hsame])) heq

/-- **Where rounding runs past an exponent**: from half a step below the next power of two on, because the
    significand there is odd. -/
theorem lt_iff (h : Rounded scaled den s significand) (hden : 0 < den) (t : Nat) :
    s * 2 ^ 52 + significand < (t + 3) * 2 ^ 52 ↔ scaled < (2 ^ 54 - 1) * (den * 2 ^ t) := by
  have hsignificand := h.significand_le hden
  have hstep := step_pos hden t
  have hmono : ∀ {m n}, m ≤ n → den * 2 ^ m ≤ den * 2 ^ n := fun hmn =>
    Nat.mul_le_mul_left den (Nat.pow_le_pow_right (by decide) hmn)
  have hdouble : ∀ n, den * 2 ^ (n + 1) = 2 * (den * 2 ^ n) := fun n => by ring
  rcases Nat.lt_trichotomy s (t + 1) with hs | rfl | hs
  · have hbelow := h.below
    have hle := hmono (Nat.le_of_lt_succ hs)
    omega
  · -- one step is two of the half steps: a significand below 2^53 is told by the rounding alone
    have hround := Decimal.roundDiv_within_half scaled (step_pos hden (t + 1))
    have heven := Decimal.roundDiv_lt_half_or_even scaled (step_pos hden (t + 1))
    rw [← h.rounded] at hround heven
    rw [hdouble] at hround heven
    unfold Decimal.distance at heven
    generalize den * 2 ^ t = half at *
    constructor
    · intro hlt
      rcases Nat.lt_or_ge significand (2 ^ 53 - 1) with hless | hlast
      · have hnext := Nat.mul_le_mul_right (2 * half) hless
        rw [Nat.succ_mul] at hnext
        omega
      · -- the greatest significand is odd, so a tie would not have gone to it
        obtain rfl : significand = 2 ^ 53 - 1 := by omega
        omega
    · intro hlt
      by_contra hge
      obtain rfl : significand = 2 ^ 53 := by omega
      omega
  · have habove := h.above.resolve_left (by omega)
    have hleast := (h.le_significand hden).resolve_left (by omega)
    have hle := hmono (show t + 1 + 1 ≤ s by omega)
    rw [hdouble, hdouble] at hle
    omega

end Rounded

/-! ## Bits -/

/-- The bits of what is finite fit their word, and the sign bit is free. -/
theorem toNat_toUInt64 {bits : Nat} (h : bits < 2047 * 2 ^ 52) : bits.toUInt64.toNat = bits := by
  rw [Nat.toUInt64_eq, UInt64.toNat_ofNat']
  omega

/-- The magnitude of the double with the given fields. -/
theorem magnitude_of_fields {exponent fraction : Nat} (hexponent : exponent < 2047)
    (hfraction : fraction < 2 ^ 52) :
    magnitude ⟨(exponent * 2 ^ 52 + fraction).toUInt64⟩ =
      .finite (if exponent = 0 then fraction else (2 ^ 52 + fraction) * 2 ^ (exponent - 1)) := by
  have hbits := toNat_toUInt64 (show exponent * 2 ^ 52 + fraction < 2047 * 2 ^ 52 by omega)
  have hexponentField :
      exponentField ⟨(exponent * 2 ^ 52 + fraction).toUInt64⟩ = exponent := by
    simp only [exponentField, fractionBits, hbits, Nat.shiftRight_eq_div_pow, Nat.shiftLeft_eq]
    omega
  have hfractionField :
      fractionField ⟨(exponent * 2 ^ 52 + fraction).toUInt64⟩ = fraction := by
    simp only [fractionField, fractionBits, hbits, Nat.shiftLeft_eq]
    omega
  rw [magnitude, hexponentField, hfractionField, if_neg (show exponent ≠ topExponent from hexponent.ne)]
  split
  · rfl
  · rw [Nat.shiftLeft_eq]
    rfl

/-- **A carry runs into the exponent**, so the rounded bits are the rounded number of units. -/
theorem Rounded.magnitude {scaled den s significand : Nat} (h : Rounded scaled den s significand)
    (hden : 0 < den) (htop : s * 2 ^ 52 + significand < 2047 * 2 ^ 52) :
    magnitude ⟨(s * 2 ^ 52 + significand).toUInt64⟩ = .finite (significand * 2 ^ s) := by
  have hle := h.significand_le hden
  have hleast := h.le_significand hden
  rcases Nat.lt_or_ge significand (2 ^ 52) with hsmall | hlarge
  · obtain rfl : s = 0 := hleast.resolve_right (by omega)
    rw [magnitude_of_fields (by decide) hsmall, if_pos rfl, Nat.pow_zero, Nat.mul_one]
  · obtain ⟨fraction, rfl⟩ := Nat.exists_eq_add_of_le hlarge
    rcases Nat.lt_or_ge fraction (2 ^ 52) with hfraction | hcarry
    · have hbits : s * 2 ^ 52 + (2 ^ 52 + fraction) = (s + 1) * 2 ^ 52 + fraction := by ring
      rw [hbits, magnitude_of_fields (by omega) hfraction, if_neg (Nat.succ_ne_zero s),
        Nat.add_sub_cancel]
    · obtain rfl : fraction = 2 ^ 52 := by omega
      have hbits : s * 2 ^ 52 + (2 ^ 52 + 2 ^ 52) = (s + 2) * 2 ^ 52 + 0 := by ring
      rw [hbits, magnitude_of_fields (by omega) (by decide), if_neg (Nat.succ_ne_zero _),
        show s + 2 - 1 = s + 1 from rfl, Nat.pow_succ]
      congr 1
      ring

/-- Every finite double has at most 53 binary digits, and then zeros. -/
theorem exists_significand {x : Binary64} {units : Nat} (h : x.magnitude = .finite units) :
    ∃ sig e, sig < 2 ^ 53 ∧ units = sig * 2 ^ e := by
  have hfraction : x.fractionField < 2 ^ 52 := by
    rw [fractionField, fractionBits, Nat.one_shiftLeft]
    exact Nat.mod_lt _ (Nat.two_pow_pos 52)
  unfold Binary64.magnitude at h
  split at h
  · split at h <;> cases h
  · split at h
    · cases h
      exact ⟨x.fractionField, 0, by omega, by rw [Nat.pow_zero, Nat.mul_one]⟩
    · cases h
      rw [Nat.shiftLeft_eq, fractionBits, Nat.one_shiftLeft]
      exact ⟨2 ^ 52 + x.fractionField, _, by omega, rfl⟩

/-! ## Numbers -/

/-- The number that a double is, if it is one. -/
def value? (x : Binary64) : Option ℚ :=
  match x.magnitude with
  | .finite units => some (if x.negative then -(units / unitsPerOne) else units / unitsPerOne)
  | _ => none

/-- **Rounding to nearest, ties to even**: `x` is the number `v`, no double is nearer to `q`, and if another
    number is as near, then `x` is the one with an even significand. -/
structure IsNearest (q v : ℚ) (x : Binary64) : Prop where
  value : x.value? = some v
  nearest : ∀ y w, value? y = some w → |v - q| ≤ |w - q|
  even : ∀ y w, value? y = some w → w ≠ v → |w - q| = |v - q| → x.bits.toNat % 2 = 0

theorem unitsPerOne_pos : 0 < unitsPerOne := by
  rw [unitsPerOne, Nat.one_shiftLeft]
  exact Nat.two_pow_pos 1074

/-- Distances of numbers are distances of units. -/
theorem abs_sub_eq {num den : Nat} (hden : 0 < den) (units : Nat) :
    |(units / unitsPerOne : ℚ) - num / den| =
      Decimal.distance (num * unitsPerOne) den units / (unitsPerOne * den) := by
  have hone : (0 : ℚ) < unitsPerOne := Nat.cast_pos.mpr unitsPerOne_pos
  have hden : (0 : ℚ) < den := Nat.cast_pos.mpr hden
  have hsub : (units / unitsPerOne : ℚ) - num / den =
      ((units * den - (num * unitsPerOne : Nat) : ℤ) : ℚ) / (unitsPerOne * den) := by
    push_cast
    field_simp
  rw [hsub, abs_div, abs_of_pos (mul_pos hone hden), ← Int.cast_abs, Int.abs_eq_natAbs]
  rfl

/-- A negative number is not nearer to a number that is not negative than zero is. -/
theorem exists_units_of_value? {y : Binary64} {w q : ℚ} (h : y.value? = some w) (hq : 0 ≤ q) :
    ∃ sig e : Nat, sig < 2 ^ 53 ∧ |((sig * 2 ^ e : Nat) / unitsPerOne : ℚ) - q| ≤ |w - q| ∧
      (|((sig * 2 ^ e : Nat) / unitsPerOne : ℚ) - q| = |w - q| →
        ((sig * 2 ^ e : Nat) / unitsPerOne : ℚ) = w) := by
  unfold value? at h
  split at h
  · rename_i units hmagnitude
    obtain ⟨sig, e, hsig, rfl⟩ := exists_significand hmagnitude
    split at h
    · cases h
      have hunits : (0 : ℚ) ≤ (sig * 2 ^ e : Nat) / unitsPerOne :=
        div_nonneg (Nat.cast_nonneg _) (Nat.cast_nonneg _)
      refine ⟨0, 0, by decide, ?_⟩
      rw [Nat.zero_mul, Nat.cast_zero, zero_div, zero_sub, abs_neg, abs_of_nonneg hq,
        abs_sub_comm, abs_of_nonneg (by linarith)]
      constructor
      · linarith
      · intro heq
        linarith
    · cases h
      exact ⟨sig, e, hsig, le_rfl, fun _ => rfl⟩
  · cases h

/-- Half a step below a power of two, counted in units. -/
theorem div_lt_iff {num den one : Nat} (hden : 0 < den) (a : Nat) {b : Nat} (hone : one = 1 <<< b) :
    (num / den : ℚ) < 2 ^ (a + 54) - 2 ^ a ↔ num * one < (2 ^ 54 - 1) * (den * 2 ^ (a + b)) := by
  rw [Nat.one_shiftLeft] at hone
  subst hone
  have hden : (0 : ℚ) < den := Nat.cast_pos.mpr hden
  have hpow : (0 : ℚ) < 2 ^ b := by positivity
  rw [div_lt_iff₀ hden, ← mul_lt_mul_iff_left₀ hpow]
  have hcast : ((2 ^ (a + 54) - 2 ^ a) * den * 2 ^ b : ℚ) =
      (((2 ^ 54 - 1) * (den * 2 ^ (a + b)) : Nat) : ℚ) := by
    push_cast
    rw [pow_add, pow_add]
    ring
  rw [hcast]
  exact_mod_cast Iff.rfl

/-- `Rounded.nearest` for quotients: nothing of 53 binary digits is nearer. -/
theorem Rounded.nearest_div {num den s significand : Nat} (hden : 0 < den)
    (h : Rounded (num * unitsPerOne) den s significand) {sig : Nat} (hsig : sig < 2 ^ 53) (e : Nat) :
    |((significand * 2 ^ s : Nat) / unitsPerOne : ℚ) - num / den| ≤
        |((sig * 2 ^ e : Nat) / unitsPerOne : ℚ) - num / den| ∧
      (((sig * 2 ^ e : Nat) / unitsPerOne : ℚ) ≠ (significand * 2 ^ s : Nat) / unitsPerOne →
        |((sig * 2 ^ e : Nat) / unitsPerOne : ℚ) - num / den| =
          |((significand * 2 ^ s : Nat) / unitsPerOne : ℚ) - num / den| → significand % 2 = 0) := by
  have hwidth : (0 : ℚ) < unitsPerOne * den :=
    mul_pos (Nat.cast_pos.mpr unitsPerOne_pos) (Nat.cast_pos.mpr hden)
  obtain ⟨hle, heven⟩ := h.nearest hden hsig e
  rw [abs_sub_eq hden, abs_sub_eq hden]
  constructor
  · exact div_le_div_of_nonneg_right (Nat.cast_le.mpr hle) hwidth.le
  · intro hne heq
    have hdistance := Nat.cast_injective ((div_left_inj' hwidth.ne').mp heq)
    exact heven (fun hsame => hne (by rw [hsame])) hdistance

/-- The bits of a rounded quotient are the nearest double. -/
theorem Rounded.isNearest {num den s significand : Nat} (hden : 0 < den)
    (h : Rounded (num * unitsPerOne) den s significand)
    (htop : s * 2 ^ 52 + significand < 2047 * 2 ^ 52) :
    negative ⟨(s * 2 ^ 52 + significand).toUInt64⟩ = false ∧
      IsNearest (num / den) ((significand * 2 ^ s : Nat) / unitsPerOne)
        ⟨(s * 2 ^ 52 + significand).toUInt64⟩ := by
  have hbits := toNat_toUInt64 htop
  have hnegative : negative ⟨(s * 2 ^ 52 + significand).toUInt64⟩ = false := by
    rw [negative, hbits, decide_eq_false_iff_not, Nat.one_shiftLeft]
    omega
  have hquotient : (0 : ℚ) ≤ num / den := div_nonneg (Nat.cast_nonneg _) (Nat.cast_nonneg _)
  refine ⟨hnegative, ?_, ?_, ?_⟩
  · rw [value?, h.magnitude hden htop]
    simp only [hnegative, Bool.false_eq_true, if_false]
  · intro y w hy
    obtain ⟨sig, e, hsig, hle, -⟩ := exists_units_of_value? hy hquotient
    exact (h.nearest_div hden hsig e).1.trans hle
  · intro y w hy hne heq
    obtain ⟨sig, e, hsig, hle, hsame⟩ := exists_units_of_value? hy hquotient
    obtain ⟨hnearest, heven⟩ := h.nearest_div hden hsig e
    -- the units of `y` are as near as `w`, so they are `w`
    rw [heq] at hle hsame
    have htie := le_antisymm hle hnearest
    rw [hsame htie] at heven htie
    have hsignificand := heven hne htie
    show (s * 2 ^ 52 + significand).toUInt64.toNat % 2 = 0
    rw [hbits]
    omega

/-- From here on the nearest number would be out of range: half a step above the greatest double. -/
def overflow : ℚ := 2 ^ 1024 - 2 ^ 970

theorem lt_overflow_iff {num den : Nat} (hden : 0 < den) : (num / den : ℚ) < overflow ↔
    nearestBits num den < topExponent <<< fractionBits := by
  obtain ⟨s, significand, hbits, h⟩ := exists_rounded num hden
  have htop : s * 2 ^ 52 + significand < 2047 * 2 ^ 52 ↔ _ := h.lt_iff hden (970 + 1074)
  rw [hbits, topExponent, fractionBits, Nat.shiftLeft_eq, htop]
  exact div_lt_iff hden 970 (by rw [unitsPerOne])

/-- **A quotient below the overflow is rounded to the nearest double**, and never to a negative one. -/
theorem exists_nearest {num den : Nat} (hden : 0 < den) (h : (num / den : ℚ) < overflow) :
    ∃ x v, nearest? num den = some x ∧ x.negative = false ∧ IsNearest (num / den) v x := by
  have hfinite := (lt_overflow_iff hden).mp h
  obtain ⟨s, significand, hbits, hrounded⟩ := exists_rounded num hden
  have hnearest := hrounded.isNearest hden (hbits ▸ hfinite)
  rw [← hbits] at hnearest
  exact ⟨_, _, if_pos hfinite, hnearest⟩

/-- **From the overflow on there is no nearest double.** -/
theorem nearest?_eq_none {num den : Nat} (hden : 0 < den) (h : overflow ≤ (num / den : ℚ)) :
    nearest? num den = none :=
  if_neg (mt (lt_overflow_iff hden).mpr (not_lt.mpr h))

end Binary64

end LoxLexer
