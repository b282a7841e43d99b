import LoxLexer.Proofs.Numerals
import LoxLexer.Proofs.Overlapping

/-!
# `LoxLexer.Proofs.Integers` — whole numbers are exact, or reported

A run of digits is a whole number where a lexeme starts with it, no digit follows, and no point and digit go
on. Its value has no bound, and the digits are decoded characters, which may be spelled in more than one byte.
The value is read from the bytes: what fits a signed 64-bit word, in digits of one byte, is read as it is,
whatever the number of leading zeros, and everything else is an error.

## Contents
- `FitsInteger` — which runs can be read, and `integer?_spell`, what they are read as.
- `WholeAt` — where a text has a whole number; `WholeAt.placed` is the piece there, and
  `exists_whole_of_mem_tokens` goes back from an integer.
- `ExactIntegers` — what is claimed of a text and its scan; `scan_integers` proves it of every text.
-/

namespace LoxLexer

/-! ## Reading digits -/

/-- Digits of one byte each, with a value that fits a signed 64-bit word. -/
def FitsInteger (run : List Glyph) : Prop := (∀ g ∈ run, g.width = 1) ∧ digitsValue run ≤ 2 ^ 63 - 1

instance (run : List Glyph) : Decidable (FitsInteger run) := inferInstanceAs (Decidable (_ ∧ _))

/-- **What a run of digits is read as.** -/
theorem integer?_spell {run : List Glyph} (hdecoded : Decoded run)
    (hdigits : ∀ g ∈ run, g.isDigit = true) :
    Number.integer? (spell run) = if FitsInteger run then some ↑(digitsValue run) else none := by
  have hcondition : (spell run).all Decimal.isDigit ∧
      Decimal.value (spell run) ≤ Number.greatestInteger ↔ FitsInteger run := by
    rw [spell_all_isDigit_iff hdecoded hdigits]
    apply and_congr_right
    intro hwidth
    rw [value_spell hwidth hdigits]
    rfl
  by_cases hfits : FitsInteger run
  · rw [Number.integer?, if_pos (hcondition.mpr hfits), if_pos hfits, value_spell hfits.1 hdigits]
  · rw [Number.integer?, if_neg (mt hcondition.mp hfits), if_neg hfits]

/-! ## Whole numbers of a text -/

/-- A lexeme starts at the span, and the digits there are all of it. -/
structure WholeAt (source : Bytes) (span : Span) (run rest : List Glyph) : Prop where
  starts : StartsPiece source span.offset
  reads : SpanReads source span run rest
  digits : IsWhole run
  maximal : ∀ x ∈ rest.head?, x.isDigit = false
  noFraction : startsFraction rest = false

instance (source : Bytes) (span : Span) (run rest : List Glyph) : Decidable (WholeAt source span run rest) :=
  decidable_of_iff (StartsPiece source span.offset ∧ SpanReads source span run rest ∧ IsWhole run ∧
      (∀ x ∈ rest.head?, x.isDigit = false) ∧ startsFraction rest = false)
    ⟨fun ⟨hstarts, hreads, hdigits, hmaximal, hnoFraction⟩ =>
        ⟨hstarts, hreads, hdigits, hmaximal, hnoFraction⟩,
      fun h => ⟨h.starts, h.reads, h.digits, h.maximal, h.noFraction⟩⟩

/-- **Whole numbers are exact, or reported.** -/
structure ExactIntegers (source : Bytes) (s : Scan) : Prop where
  accepted : ∀ {span run rest}, WholeAt source span run rest → FitsInteger run →
    s.Accepts span .integer (.integer (digitsValue run))
  rejected : ∀ {span run rest}, WholeAt source span run rest → ¬ FitsInteger run →
    s.Rejects span (.unreadableInteger (spell run)) ∧
      (Fault.unreadableInteger (spell run)).message = ascii "Cannot parse integer " ++ spell run
  /-- No integer is negative, wrapped around, or anything else but the value of its digits. -/
  literal : ∀ t ∈ s.tokens, t.kind = .integer → ∃ run rest, WholeAt source t.span run rest ∧
    FitsInteger run ∧ t.payload = .integer (digitsValue run)

/-- The piece that a whole number is. -/
theorem WholeAt.placed {source : Bytes} {span : Span} {run rest : List Glyph}
    (h : WholeAt source span run rest) : ∃ placed ∈ placedPieces source, placed.span = span ∧
      placed.piece.form = .integer ∧ placed.piece.bytes = spell run := by
  obtain ⟨hstarts, hreads, ⟨hne, hdigits⟩, hmaximal, hnoFraction⟩ := h
  obtain ⟨g, body, rfl⟩ := List.exists_cons_of_ne_nil hne
  obtain ⟨hg, hbody⟩ := List.forall_mem_cons.mp hdigits
  have hmunched : Munched ⟨.integer, g, body⟩ rest := .integer hg hbody hmaximal hnoFraction
  obtain ⟨hmem, hspan⟩ := mem_placedPieces_of_munched hmunched hstarts hreads
  exact ⟨_, hmem, hspan, rfl, rfl⟩

/-- A piece that is an integer has nothing behind it that would belong to it. -/
theorem Munched.integer_follow {p : Piece} {follow : List Glyph} (h : Munched p follow)
    (hform : p.form = .integer) :
    (∀ x ∈ follow.head?, x.isDigit = false) ∧ startsFraction follow = false := by
  cases h with
  | integer _ _ hfollow hfraction => exact ⟨hfollow, hfraction⟩
  | _ => cases hform

/-- An integer token goes back to a whole number of the text, and is its value. -/
theorem exists_whole_of_mem_tokens {source : Bytes} {t : Token} (ht : t ∈ (scan source).tokens)
    (hkind : t.kind = .integer) : ∃ run rest, WholeAt source t.span run rest ∧ FitsInteger run ∧
      t.payload = .integer (digitsValue run) := by
  obtain ⟨hstarts, p, rest, hreads, hmunched, hreading⟩ := munched_of_mem_tokens ht (by simp [hkind])
  rw [hkind] at hreading
  obtain ⟨hform, n, hvalue, hpayload⟩ := Piece.reading_eq_integer hreading
  have hdigits := hmunched.isWhole hform
  obtain ⟨hmaximal, hnoFraction⟩ := hmunched.integer_follow hform
  refine ⟨p.lexeme, rest, ⟨hstarts, hreads, hdigits, hmaximal, hnoFraction⟩, ?_⟩
  rw [Piece.bytes, integer?_spell hreads.decoded hdigits.2] at hvalue
  split at hvalue
  · rename_i hfits
    exact ⟨hfits, hpayload.trans (congrArg Payload.integer (Option.some.inj hvalue).symm)⟩
  · cases hvalue

/-- **Scanning reads whole numbers exactly**, or reports them. -/
theorem scan_integers (source : Bytes) : ExactIntegers source (scan source) := by
  constructor
  · intro span run rest hwhole hfits
    obtain ⟨placed, hmem, rfl, hform, hbytes⟩ := hwhole.placed
    have hread := integer?_spell hwhole.reads.decoded hwhole.digits.2
    rw [if_pos hfits] at hread
    have hreading : placed.piece.reading = .token .integer (.integer (digitsValue run)) := by
      simp only [Piece.reading, hform, hbytes, hread]
    exact accepts_of_reading hmem hreading
  · intro span run rest hwhole hfits
    obtain ⟨placed, hmem, rfl, hform, hbytes⟩ := hwhole.placed
    have hread := integer?_spell hwhole.reads.decoded hwhole.digits.2
    rw [if_neg hfits] at hread
    have hreading : placed.piece.reading = .faulty (.unreadableInteger (spell run)) := by
      simp only [Piece.reading, hform, hbytes, hread]
    exact ⟨rejects_of_reading hmem hreading, rfl⟩
  · exact fun t ht hkind => exists_whole_of_mem_tokens ht hkind

/-- Leading zeros do not count, and what is too great by one is reported. -/
theorem scan_integers_boundary :
    let source := ascii "007;9223372036854775808"
    let small := decode (ascii "007")
    let large := decode (ascii "9223372036854775808")
    WholeAt source ⟨0, 3⟩ small (decode (ascii ";9223372036854775808")) ∧ FitsInteger small ∧
      (scan source).Accepts ⟨0, 3⟩ .integer (.integer 7) ∧
      WholeAt source ⟨4, 19⟩ large [] ∧ ¬ FitsInteger large ∧
      (scan source).Rejects ⟨4, 19⟩ (.unreadableInteger (ascii "9223372036854775808")) := by
  intro source small large
  have hsmall : WholeAt source ⟨0, 3⟩ small (decode (ascii ";9223372036854775808")) := by decide +kernel
  have hlarge : WholeAt source ⟨4, 19⟩ large [] := by decide +kernel
  have hfits : FitsInteger small := by decide +kernel
  have hoverflow : ¬ FitsInteger large := by decide +kernel
  have hvalue : digitsValue small = 7 := by decide +kernel
  have haccepted := (scan_integers source).accepted hsmall hfits
  obtain ⟨hrejected, -⟩ := (scan_integers source).rejected hlarge hoverflow
  rw [hvalue] at haccepted
  rw [spell_decode] at hrejected
  exact ⟨hsmall, hfits, haccepted, hlarge, hoverflow, hrejected⟩

/-- A digit in two bytes is a digit, but no integer. -/
example : scan [0xc0, 0xb1] = ⟨[endToken 2], [⟨.unreadableInteger [0xc0, 0xb1], ⟨0, 2⟩⟩]⟩ := by
  decide +kernel

end LoxLexer
