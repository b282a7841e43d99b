import LoxLexer.Proofs.Addressing
import LoxLexer.Proofs.Decimals

/-!
# `LoxLexer.Proofs.Denoting` — the number that a printed text denotes

A number is printed in one of two forms: positionally, or with an exponent behind it. Here both are read
back, exactly and as rational numbers. What is written for some digits and an exponent then denotes these
digits at this exponent, in whatever form, and the zeros that are not written make no difference.

## Contents
- `positional?`, `exponent?`, `denoted?` — reading the two forms.
- `positional?_pointed` — a whole part and a fraction, with the zeros at its end left out.
- `Significant.value`, `Significant.denoted?_text` — digits at an exponent, and what is written for them.
-/

namespace LoxLexer.Decimal

/-! ## Reading numbers -/

/-- A number in positional form: digits, or digits, a point and digits. -/
def positional? (text : Bytes) : Option ℚ :=
  match split Number.point text with
  | [whole] => if whole ≠ [] ∧ whole.all isDigit then some (value whole) else none
  | [whole, fraction] =>
    if whole ≠ [] ∧ fraction ≠ [] ∧ whole.all isDigit ∧ fraction.all isDigit then
      some (value (whole ++ fraction) / 10 ^ fraction.length)
    else none
  | _ => none

/-- A sign and digits. -/
def exponent? : Bytes → Option ℤ
  | [] => none
  | sign :: digits =>
    if digits ≠ [] ∧ digits.all isDigit then
      if [sign] = ascii "+" then some (value digits)
      else if [sign] = ascii "-" then some (-value digits)
      else none
    else none

/-- The byte between a number and its exponent. -/
def exponentMark : UInt8 := 'e'.toUInt8

/-- The number that a text denotes: one in positional form, times a power of ten if there is an exponent. -/
def denoted? (text : Bytes) : Option ℚ :=
  match split exponentMark text with
  | [digits] => positional? digits
  | [digits, power] => do
    let number ← positional? digits
    let exponent ← exponent? power
    return number * 10 ^ exponent
  | _ => none

example : denoted? (ascii "1.5e-07") = some (15 / 10 ^ 8) := by decide +kernel

/-! ## Zeros that make no difference -/

theorem value_replicate_zero (n : Nat) : value (List.replicate n (digit 0)) = 0 := by
  induction n with
  | zero => rfl
  | succ n ih =>
    rw [List.replicate_succ', value_append, ih]
    rfl

/-- Zeros in front of a numeral. -/
theorem value_replicate_zero_append (n : Nat) (digits : Bytes) :
    value (List.replicate n (digit 0) ++ digits) = value digits := by
  rw [value_append, value_replicate_zero, Nat.zero_mul, Nat.zero_add]

/-- Zeros behind a numeral. -/
theorem value_append_replicate_zero (digits : Bytes) (n : Nat) :
    value (digits ++ List.replicate n (digit 0)) = value digits * 10 ^ n := by
  rw [value_append, value_replicate_zero, List.length_replicate, Nat.add_zero]

/-- Nothing but zeros is trimmed. -/
theorem exists_trimZeros (digits : Bytes) :
    ∃ n, digits = Significant.trimZeros digits ++ List.replicate n (digit 0) := by
  refine ⟨(digits.reverse.takeWhile (· == digit 0)).length, ?_⟩
  have hzeros : digits.reverse.takeWhile (· == digit 0) =
      List.replicate (digits.reverse.takeWhile (· == digit 0)).length (digit 0) :=
    List.eq_replicate_of_mem fun b hb => by simpa using List.mem_takeWhile_imp hb
  rw [Significant.trimZeros, ← List.reverse_replicate, ← hzeros, ← List.reverse_append,
    List.takeWhile_append_dropWhile, List.reverse_reverse]

theorem all_isDigit_replicate_zero (n : Nat) : (List.replicate n (digit 0)).all isDigit = true := by
  rw [List.all_eq_true]
  intro b hb
  rw [List.eq_of_mem_replicate hb]
  decide

theorem all_isDigit_numeral (n : Nat) : (numeral n).all isDigit = true :=
  List.all_eq_true.mpr fun _ => isDigit_of_mem_numeral

theorem numeral_ne_nil (n : Nat) : numeral n ≠ [] := by
  rw [← List.length_pos_iff, length_numeral]
  exact digitCount_pos n

/-! ## What is written -/

section Pointed

variable {whole fraction : Bytes}

theorem positional?_digits (hne : whole ≠ []) (hwhole : whole.all isDigit) :
    positional? whole = some (value whole : ℚ) := by
  rw [positional?, split_of_not_mem (Number.point_not_mem hwhole)]
  exact if_pos ⟨hne, hwhole⟩

theorem positional?_point (hne : whole ≠ []) (hfraction : fraction ≠ [])
    (hwhole : whole.all isDigit) (hdigits : fraction.all isDigit) :
    positional? (whole ++ Number.point :: fraction) =
      some (value (whole ++ fraction) / 10 ^ fraction.length : ℚ) := by
  rw [positional?, split_append_cons, split_of_not_mem (Number.point_not_mem hwhole),
    split_of_not_mem (Number.point_not_mem hdigits)]
  exact if_pos ⟨hne, hfraction, hwhole, hdigits⟩

/-- **A whole part and a fraction** are written as the number that they denote, though zeros at the end of
    the fraction are left out, and the point with them if nothing is behind it. -/
theorem positional?_pointed (hne : whole ≠ []) (hwhole : whole.all isDigit)
    (hfraction : fraction.all isDigit) : positional? (Significant.pointed whole fraction) =
      some (value (whole ++ fraction) / 10 ^ fraction.length : ℚ) := by
  obtain ⟨n, hsplit⟩ := exists_trimZeros fraction
  generalize hkept : Significant.trimZeros fraction = kept at hsplit
  have hvalue : (value (whole ++ fraction) / 10 ^ fraction.length : ℚ) =
      value (whole ++ kept) / 10 ^ kept.length := by
    rw [hsplit, ← List.append_assoc, value_append_replicate_zero, List.length_append,
      List.length_replicate, pow_add]
    push_cast
    field_simp
  rw [hvalue, Significant.pointed, hkept]
  cases kept with
  | nil =>
    rw [positional?_digits hne hwhole, List.append_nil, List.length_nil, pow_zero, div_one]
  | cons b more =>
    rw [hsplit, List.all_append, Bool.and_eq_true] at hfraction
    show positional? (whole ++ ascii "." ++ (b :: more)) = _
    rw [List.append_assoc]
    exact positional?_point hne (List.cons_ne_nil b more) hwhole hfraction.1

theorem exponentMark_not_mem_digits {digits : Bytes} (h : digits.all isDigit) :
    exponentMark ∉ digits := by
  intro hmem
  have hdigit := List.all_eq_true.mp h _ hmem
  revert hdigit
  decide

theorem exponentMark_not_mem_pointed (hwhole : whole.all isDigit) (hfraction : fraction.all isDigit) :
    exponentMark ∉ Significant.pointed whole fraction := by
  obtain ⟨n, hsplit⟩ := exists_trimZeros fraction
  have hkept : (Significant.trimZeros fraction).all isDigit = true := by
    rw [hsplit, List.all_append, Bool.and_eq_true] at hfraction
    exact hfraction.1
  unfold Significant.pointed
  split
  · exact exponentMark_not_mem_digits hwhole
  · rw [List.mem_append, List.mem_append]
    rintro ((hmem | hmem) | hmem)
    · exact exponentMark_not_mem_digits hwhole hmem
    · exact absurd hmem (by decide)
    · exact exponentMark_not_mem_digits hkept hmem

/-- Without an exponent. -/
theorem denoted?_pointed (hne : whole ≠ []) (hwhole : whole.all isDigit)
    (hfraction : fraction.all isDigit) : denoted? (Significant.pointed whole fraction) =
      some (value (whole ++ fraction) / 10 ^ fraction.length : ℚ) := by
  rw [denoted?, split_of_not_mem (exponentMark_not_mem_pointed hwhole hfraction)]
  exact positional?_pointed hne hwhole hfraction

end Pointed

/-- An exponent is written as a sign and digits, behind its mark. -/
theorem exists_exponentText (least : Nat) (exponent : ℤ) : ∃ power,
    Significant.exponentText least exponent = exponentMark :: power ∧ exponentMark ∉ power ∧
      exponent? power = some exponent := by
  have hdigits : (List.replicate (least - (numeral exponent.natAbs).length) (digit 0) ++
      numeral exponent.natAbs).all isDigit = true := by
    rw [List.all_append, all_isDigit_replicate_zero, all_isDigit_numeral, Bool.and_true]
  have hne : List.replicate (least - (numeral exponent.natAbs).length) (digit 0) ++
      numeral exponent.natAbs ≠ [] := List.append_ne_nil_of_right_ne_nil _ (numeral_ne_nil _)
  have hvalue : value (List.replicate (least - (numeral exponent.natAbs).length) (digit 0) ++
      numeral exponent.natAbs) = exponent.natAbs := by
    rw [value_replicate_zero_append, value_numeral]
  rw [Significant.exponentText, List.append_assoc]
  generalize List.replicate (least - (numeral exponent.natAbs).length) (digit 0) ++
    numeral exponent.natAbs = digits at *
  have hmark : ∀ sign : UInt8, sign ≠ exponentMark → exponentMark ∉ sign :: digits := by
    intro sign hsign hmem
    rcases List.mem_cons.mp hmem with heq | hmem
    · exact hsign heq.symm
    · exact exponentMark_not_mem_digits hdigits hmem
  by_cases hnegative : exponent < 0
  · refine ⟨'-'.toUInt8 :: digits, ?_, hmark _ (by decide), ?_⟩
    · rw [if_pos hnegative]
      rfl
    · rw [exponent?, if_pos ⟨hne, hdigits⟩, if_neg (by decide), if_pos (by decide), hvalue]
      congr 1
      omega
  · refine ⟨'+'.toUInt8 :: digits, ?_, hmark _ (by decide), ?_⟩
    · rw [if_neg hnegative]
      rfl
    · rw [exponent?, if_pos ⟨hne, hdigits⟩, if_pos (by decide), hvalue]
      congr 1
      omega

/-- With an exponent. -/
theorem denoted?_pointed_exponentText {whole fraction : Bytes} (hne : whole ≠ [])
    (hwhole : whole.all isDigit) (hfraction : fraction.all isDigit) (least : Nat) (exponent : ℤ) :
    denoted? (Significant.pointed whole fraction ++ Significant.exponentText least exponent) =
      some (value (whole ++ fraction) / 10 ^ fraction.length * 10 ^ exponent : ℚ) := by
  obtain ⟨power, hpower, hmark, hread⟩ := exists_exponentText least exponent
  rw [denoted?, hpower, split_append_cons,
    split_of_not_mem (exponentMark_not_mem_pointed hwhole hfraction), split_of_not_mem hmark]
  show (positional? _).bind _ = _
  rw [positional?_pointed hne hwhole hfraction, Option.bind_some, hread]
  rfl

namespace Significant

/-- The number `d.ddd… × 10^exponent`. -/
def value (s : Significant) : ℚ := s.digits * 10 ^ (s.exponent + 1 - digitCount s.digits)

/-- Digits with so many of them behind the point, at an exponent that shifts the point. -/
theorem value_eq {s : Significant} {places : Nat} {exponent : ℤ}
    (h : exponent - places = s.exponent + 1 - digitCount s.digits) :
    (s.digits / 10 ^ places * 10 ^ exponent : ℚ) = s.value := by
  rw [value, ← h, zpow_sub₀ (by norm_num), zpow_natCast]
  ring

/-- **What is written denotes the number**, in every layout that computes as many digits as there are. -/
theorem denoted?_text {layout : Layout} {s : Significant} (h : digitCount s.digits = layout.precision) :
    denoted? (s.text layout) = some s.value := by
  have hlength : (numeral s.digits).length = layout.precision := by rw [length_numeral, h]
  have hdigits : ∀ {part}, part ⊆ numeral s.digits → part.all isDigit = true := fun hpart =>
    List.all_eq_true.mpr fun _ hb => isDigit_of_mem_numeral (hpart hb)
  have hfront : ∀ n, (numeral s.digits).take (n + 1) ≠ [] := by
    intro n hnil
    rcases List.take_eq_nil_iff.mp hnil with hzero | hnil
    · cases hzero
    · exact numeral_ne_nil _ hnil
  unfold Significant.text
  dsimp only
  split
  · -- one digit in front of the point
    rw [denoted?_pointed_exponentText (hfront 0) (hdigits (List.take_subset _ _))
      (hdigits (List.drop_subset _ _)), List.take_append_drop, value_numeral, value_eq]
    have hpos := digitCount_pos s.digits
    rw [List.length_drop, hlength, h]
    omega
  · rename_i hpositional
    split
    · -- a zero in front of the point, and zeros behind it
      rw [denoted?_pointed (List.cons_ne_nil _ _) (by decide)
        (by rw [List.all_append, all_isDigit_replicate_zero, hdigits (List.Subset.refl _)]; rfl),
        ← List.append_assoc, ← List.replicate_one, List.replicate_append_replicate,
        value_replicate_zero_append, value_numeral, ← mul_one (_ / _), ← zpow_zero (10 : ℚ), value_eq]
      rw [List.length_append, List.length_replicate, hlength, h]
      omega
    · -- as many digits in front of the point as the exponent says
      rw [denoted?_pointed (hfront _) (hdigits (List.take_subset _ _)) (hdigits (List.drop_subset _ _)),
        List.take_append_drop, value_numeral, ← mul_one (_ / _), ← zpow_zero (10 : ℚ), value_eq]
      rw [List.length_drop, hlength, h]
      omega

end Significant

end LoxLexer.Decimal
