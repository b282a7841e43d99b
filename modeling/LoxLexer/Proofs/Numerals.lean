import LoxLexer.Decimal.Numeral
import LoxLexer.Proofs.Counting
import LoxLexer.Proofs.Decoding
import Mathlib.Data.Nat.Digits.Defs

/-!
# `LoxLexer.Proofs.Numerals` — digits as bytes and as characters

A numeral that is written can be read back, so no two numbers are written alike. In source text a digit is a
decoded character, and only its spelling decides whether it is also one of the ten digit bytes: a digit of
one byte is, and a longer one has no digit byte in it at all.

## Contents
- `Decimal.value_eq_ofDigits`, `Decimal.value_append` — the number that digit bytes denote, by their places.
- `Decimal.value_numeral`, `Decimal.numeral_injective`, `Decimal.signed_injective` — reading back.
  `Decimal.digitCount_eq_length_digits` — how many digits there are.
- `digitsValue`, `value_spell` — the number that digit characters denote is that of their bytes.
- `width_eq_one_of_ascii`, `spell_all_isDigit_iff` — digits of one byte, and the others.
-/

namespace LoxLexer

/-! ## Written numbers -/

namespace Decimal

theorem toNat_digit {d : Nat} (h : d < 10) : (digit d).toNat = '0'.toNat + d := by
  have hzero : '0'.toNat = 48 := rfl
  have hsmall : 48 + d < 2 ^ 8 := by omega
  rw [digit, hzero, Nat.toUInt8_eq, UInt8.toNat_ofNat', Nat.mod_eq_of_lt hsmall]

theorem isDigit_iff {b : UInt8} : isDigit b = true ↔ 48 ≤ b.toNat ∧ b.toNat ≤ 57 := by
  have hzero : (digit 0).toNat = 48 := toNat_digit (by decide)
  have hnine : (digit 9).toNat = 57 := toNat_digit (by decide)
  rw [isDigit, Bool.and_eq_true, decide_eq_true_eq, decide_eq_true_eq, UInt8.le_iff_toNat_le,
    UInt8.le_iff_toNat_le, hzero, hnine]

theorem lt_of_isDigit {b : UInt8} (h : isDigit b = true) : b < 0x80 := by
  rw [UInt8.lt_iff_toNat_lt]
  exact Nat.lt_of_le_of_lt (isDigit_iff.mp h).2 (by decide)

/-- A numeral denotes its digits times the powers of ten that belong to their places. -/
theorem value_eq_ofDigits (digits : Bytes) :
    value digits = Nat.ofDigits 10 (digits.reverse.map fun b => b.toNat - '0'.toNat) := by
  induction digits using List.reverseRecOn with
  | nil => rfl
  | append_singleton digits b ih =>
    rw [value, List.foldl_append, ← value, ih, List.reverse_append, List.reverse_singleton,
      List.singleton_append, List.map_cons, Nat.ofDigits_cons, List.foldl_cons, List.foldl_nil,
      Nat.add_comm]

theorem value_append (left right : Bytes) :
    value (left ++ right) = value left * 10 ^ right.length + value right := by
  rw [value_eq_ofDigits, value_eq_ofDigits, value_eq_ofDigits, List.reverse_append, List.map_append,
    Nat.ofDigits_append, List.length_map, List.length_reverse, Nat.add_comm, Nat.mul_comm]

/-- **What is written is read back.** -/
theorem value_numeral (n : Nat) : value (numeral n) = n := by
  have hlast : ∀ d < 10, value [digit d] = d := by
    intro d hd
    show 10 * 0 + ((digit d).toNat - '0'.toNat) = d
    rw [toNat_digit hd]
    omega
  fun_induction numeral n with
  | case1 n h => exact hlast n h
  | case2 n _ ih =>
    rw [value_append, ih, hlast (n % 10) (Nat.mod_lt _ (by decide))]
    exact Nat.div_add_mod' n 10

theorem numeral_injective {m n : Nat} (h : numeral m = numeral n) : m = n := by
  rw [← value_numeral m, h, value_numeral]

/-- Counting digits by division agrees with the digits that a number has. -/
theorem digitCount_eq_length_digits {n : Nat} (h : 0 < n) :
    digitCount n = (Nat.digits 10 n).length := by
  fun_induction digitCount n with
  | case1 n hn => rw [Nat.digits_of_lt 10 n h.ne' hn, List.length_singleton]
  | case2 n hn ih =>
    rw [Nat.digits_def' (by decide) h, List.length_cons, ih (Nat.div_pos (Nat.le_of_not_lt hn) (by decide))]

/-- No numeral starts with a sign. -/
theorem numeral_ne_minus (n : Nat) (rest : Bytes) : numeral n ≠ ascii "-" ++ rest := by
  intro heq
  have hmem : 0x2d ∈ numeral n := by
    rw [heq]
    exact List.mem_cons_self
  exact not_mem_numeral (by decide) n hmem

/-- No two integers are written alike. -/
theorem signed_injective {m n : Int} (h : signed m = signed n) : m = n := by
  unfold signed at h
  by_cases hm : m < 0
  · by_cases hn : n < 0
    · rw [if_pos hm, if_pos hn] at h
      have habs := numeral_injective (List.append_cancel_left h)
      omega
    · rw [if_pos hm, if_neg hn, List.nil_append] at h
      exact absurd h.symm (numeral_ne_minus _ _)
  · by_cases hn : n < 0
    · rw [if_neg hm, if_pos hn, List.nil_append] at h
      exact absurd h (numeral_ne_minus _ _)
    · rw [if_neg hm, if_neg hn, List.nil_append, List.nil_append] at h
      have habs := numeral_injective h
      omega

end Decimal

/-! ## Digits in source text -/

/-- The number that a run of digit characters denotes, however they are spelled. -/
def digitsValue (run : List Glyph) : Nat :=
  Nat.ofDigits 10 (run.reverse.map fun g => g.code - '0'.toNat)

namespace Glyph

variable {g : Glyph}

theorem width_eq_one_iff : g.width = 1 ↔ g.tail = [] := by
  rw [width, Nat.succ_inj, List.length_eq_zero_iff]

theorem bytes_of_width (h : g.width = 1) : g.bytes = [g.lead] := by
  rw [bytes, width_eq_one_iff.mp h]

/-- An ASCII character of one byte is the byte with its number. -/
theorem toNat_lead (h : g.width = 1) (hcode : g.code < 0x80) : g.lead.toNat = g.code := by
  by_cases hlead : g.lead < 0x80
  · simp [code, width_eq_one_iff.mp h, hlead]
  · simp [code, width_eq_one_iff.mp h, hlead, CodePoint.replacement] at hcode

/-- A digit of one byte is a digit byte. -/
theorem isDigit_lead (h : g.width = 1) (hdigit : g.isDigit = true) : Decimal.isDigit g.lead = true := by
  rw [isDigit_iff] at hdigit
  have hcode : g.code < 0x80 := by
    unfold CodePoint at *
    omega
  rw [Decimal.isDigit_iff, toNat_lead h hcode]
  exact hdigit

end Glyph

/-- Characters of one byte each are spelled by their first bytes. -/
theorem spell_of_width {glyphs : List Glyph} (h : ∀ g ∈ glyphs, g.width = 1) :
    spell glyphs = glyphs.map Glyph.lead := by
  induction glyphs with
  | nil => rfl
  | cons g rest ih =>
    obtain ⟨hg, hrest⟩ := List.forall_mem_cons.mp h
    rw [spell_cons, Glyph.bytes_of_width hg, ih hrest]
    rfl

/-- ASCII bytes are characters of one byte each. -/
theorem width_eq_one_of_ascii {glyphs : List Glyph} (hdecoded : Decoded glyphs)
    (hascii : ∀ b ∈ spell glyphs, b < 0x80) : ∀ g ∈ glyphs, g.width = 1 := by
  intro g hg
  have hmem : g.lead ∈ spell glyphs := List.mem_flatMap.mpr ⟨g, hg, List.mem_cons_self⟩
  have halone : g = ⟨g.lead, []⟩ := hdecoded.eq_of_mem hg (hascii g.lead hmem) List.mem_cons_self
  rw [halone]
  rfl

section Run

variable {run : List Glyph}

/-- **Digit characters spell digit bytes** exactly where each of them is one byte. -/
theorem spell_all_isDigit_iff (hdecoded : Decoded run) (hdigits : ∀ g ∈ run, g.isDigit = true) :
    (spell run).all Decimal.isDigit = true ↔ ∀ g ∈ run, g.width = 1 := by
  constructor
  · intro hall
    apply width_eq_one_of_ascii hdecoded
    intro b hb
    exact Decimal.lt_of_isDigit (List.all_eq_true.mp hall b hb)
  · intro hwidth
    rw [spell_of_width hwidth, List.all_map, List.all_eq_true]
    intro g hg
    exact Glyph.isDigit_lead (hwidth g hg) (hdigits g hg)

/-- The bytes of digits of one byte denote what the characters denote. -/
theorem value_spell (hwidth : ∀ g ∈ run, g.width = 1) (hdigits : ∀ g ∈ run, g.isDigit = true) :
    Decimal.value (spell run) = digitsValue run := by
  rw [Decimal.value_eq_ofDigits, digitsValue, spell_of_width hwidth, ← List.map_reverse, List.map_map]
  congr 1
  apply List.map_congr_left
  intro g hg
  have hg := List.mem_reverse.mp hg
  have hdigit := Glyph.isDigit_iff.mp (hdigits g hg)
  show g.lead.toNat - '0'.toNat = g.code - '0'.toNat
  rw [Glyph.toNat_lead (hwidth g hg) (Nat.lt_of_le_of_lt hdigit.2 (by decide))]

end Run

end LoxLexer
