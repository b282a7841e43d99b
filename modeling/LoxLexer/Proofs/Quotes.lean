import LoxLexer.Proofs.Overlapping

/-!
# `LoxLexer.Proofs.Quotes` — what a string carries of the text between its quotes

A quote is a decoded character, and like any other it can be spelled in more than one byte. The content of
a string is cut by bytes: all of the lexeme but its first byte and its last. With quotes of one byte this is
the text between them. A longer quote leaves its remaining bytes in the content, so then, and only then, the
payload is not the text between the quotes.

## Contents
- `stringContent_quoted` — the content of a string by the characters of its lexeme.
- `quote_not_mem_stringContent` — however the quotes are spelled, no byte of the content is a quote.
- `scan_string_payload` — the payload of every string token, and when it is the text between the quotes.
- `VerbatimStrings`, `not_verbatimStrings_longQuotes` — that it always is, and a text where it is not.
-/

namespace LoxLexer

/-- The content of a string keeps the further bytes of its opening quote and the earlier bytes of its closing
    one. -/
theorem stringContent_quoted (opening closing : Glyph) (body : List Glyph) :
    stringContent (spell (opening :: (body ++ [closing]))) =
      opening.tail ++ spell body ++ closing.bytes.dropLast := by
  have hclosing : closing.bytes.dropLast ++ [closing.bytes.getLast (List.cons_ne_nil _ _)] =
      closing.bytes := List.dropLast_append_getLast _
  have hbytes : spell (opening :: (body ++ [closing])) =
      opening.lead :: (opening.tail ++ spell body ++ closing.bytes.dropLast ++
        [closing.bytes.getLast (List.cons_ne_nil _ _)]) := by
    rw [List.append_assoc (opening.tail ++ spell body), hclosing, spell_cons, spell_append, spell_cons,
      spell_nil, List.append_nil, List.append_assoc]
    rfl
  rw [hbytes, stringContent_cons_concat]

/-- The byte of a quote spelled as one byte. -/
def quote : UInt8 := '"'.toUInt8

/-- **No quote in a string**: the byte of a quote is always a character by itself, so it can stand only where
    the content is cut off. -/
theorem quote_not_mem_stringContent {lexeme : List Glyph} (hquoted : IsQuoted lexeme)
    (hdecoded : Decoded lexeme) : quote ∉ stringContent (spell lexeme) := by
  obtain ⟨opening, body, closing, rfl, -, hbody, -⟩ := hquoted
  have halone : ∀ g ∈ opening :: (body ++ [closing]), quote ∈ g.bytes → g = ⟨quote, []⟩ :=
    fun g hg => hdecoded.eq_of_mem hg (by decide)
  rw [stringContent_quoted, List.mem_append, List.mem_append]
  rintro ((hopening | hinner) | hclosing)
  · have hsame := halone opening List.mem_cons_self (List.mem_cons_of_mem _ hopening)
    rw [hsame] at hopening
    cases hopening
  · obtain ⟨g, hg, hmem⟩ := List.mem_flatMap.mp hinner
    have hsame := halone g (by simp [hg]) hmem
    have hother := hbody g hg
    rw [hsame] at hother
    revert hother
    decide
  · have hsame := halone closing (by simp) (List.dropLast_subset _ hclosing)
    rw [hsame] at hclosing
    cases hclosing

/-- A string token is a quoted lexeme, with the content of it. -/
theorem exists_quoted_of_mem_tokens {source : Bytes} {t : Token} (ht : t ∈ (scan source).tokens)
    (hkind : t.kind = .string) : ∃ lexeme rest, SpanReads source t.span lexeme rest ∧ IsQuoted lexeme ∧
      t.payload = .text (stringContent (spell lexeme)) := by
  obtain ⟨-, p, rest, hreads, hmunched, hreading⟩ := munched_of_mem_tokens ht (by simp [hkind])
  rw [hkind] at hreading
  exact ⟨p.lexeme, rest, hreads, hmunched.matches_of_reading hreading,
    (Piece.reading_eq_string hreading).2⟩

/-- **What a string carries**: its lexeme without the first byte and the last. That is the text between its
    quotes exactly where both quotes are spelled as one byte. -/
theorem scan_string_payload {source : Bytes} {t : Token} (ht : t ∈ (scan source).tokens)
    (hkind : t.kind = .string) : ∃ opening body closing rest,
      SpanReads source t.span (opening :: (body ++ [closing])) rest ∧
        opening.is '"' = true ∧ (∀ x ∈ body, x.is '"' = false) ∧ closing.is '"' = true ∧
        t.payload = .text (opening.tail ++ spell body ++ closing.bytes.dropLast) ∧
        (t.payload = .text (spell body) ↔ opening.width = 1 ∧ closing.width = 1) := by
  obtain ⟨lexeme, rest, hreads, hquoted, hpayload⟩ := exists_quoted_of_mem_tokens ht hkind
  obtain ⟨opening, body, closing, rfl, hopening, hbody, hclosing⟩ := hquoted
  rw [stringContent_quoted] at hpayload
  refine ⟨opening, body, closing, rest, hreads, hopening, hbody, hclosing, hpayload, ?_⟩
  rw [hpayload, Payload.text.injEq]
  constructor
  · intro heq
    have hlength := congrArg List.length heq
    simp only [List.length_append, List.length_dropLast, Glyph.length_bytes] at hlength
    have hwide := closing.width_pos
    unfold Glyph.width at *
    omega
  · rintro ⟨hopen, hclose⟩
    have htail : opening.tail = [] := List.length_eq_zero_iff.mp (Nat.succ.inj hopen)
    have hlast : closing.tail = [] := List.length_eq_zero_iff.mp (Nat.succ.inj hclose)
    simp [htail, Glyph.bytes, hlast]

/-- A string with a newline in it, between quotes of one byte. -/
theorem scan_string_payload_newline :
    let source : Bytes := [0x22, 0x0a, 0x22]
    let t : Token := ⟨.string, ⟨0, 3⟩, .text [0x0a]⟩
    t ∈ (scan source).tokens ∧ t.kind = .string ∧ ∃ opening body closing rest,
      SpanReads source t.span (opening :: (body ++ [closing])) rest ∧
        opening.is '"' = true ∧ (∀ x ∈ body, x.is '"' = false) ∧ closing.is '"' = true ∧
        t.payload = .text (opening.tail ++ spell body ++ closing.bytes.dropLast) ∧
        (t.payload = .text (spell body) ↔ opening.width = 1 ∧ closing.width = 1) := by
  intro source t
  have htokens : (scan source).tokens = [t, endToken 3] := by decide +kernel
  have ht : t ∈ (scan source).tokens := by
    rw [htokens]
    exact List.mem_cons_self
  exact ⟨ht, rfl, scan_string_payload ht rfl⟩

/-! ## Quotes of more than one byte -/

/-- Every string carries the text between its quotes, however these are spelled. -/
def VerbatimStrings (source : Bytes) : Prop :=
  ∀ t ∈ (scan source).tokens, t.kind = .string → ∃ opening body closing rest,
    SpanReads source t.span (opening :: (body ++ [closing])) rest ∧ t.payload = .text (spell body)

/-- A letter between two quotes of two bytes each: the string carries a byte of either quote. -/
theorem not_verbatimStrings_longQuotes : ¬ VerbatimStrings [0xc0, 0xa2, 0x61, 0xc0, 0xa2] := by
  intro hverbatim
  have htokens : (scan [0xc0, 0xa2, 0x61, 0xc0, 0xa2]).tokens =
      [⟨.string, ⟨0, 5⟩, .text [0xa2, 0x61, 0xc0]⟩, endToken 5] := by decide +kernel
  have hdecode : decode [0xc0, 0xa2, 0x61, 0xc0, 0xa2] =
      [⟨0xc0, [0xa2]⟩, ⟨0x61, []⟩, ⟨0xc0, [0xa2]⟩] := by decide +kernel
  obtain ⟨opening, body, closing, rest, hreads, hpayload⟩ :=
    hverbatim ⟨.string, ⟨0, 5⟩, .text [0xa2, 0x61, 0xc0]⟩ (by rw [htokens]; exact List.mem_cons_self) rfl
  have hopening : opening = ⟨0xc0, [0xa2]⟩ := by
    have hhere := hreads.here
    rw [List.drop_zero, hdecode] at hhere
    exact (List.cons.inj hhere).1.symm
  -- three of five bytes are left to the quotes and one of them needs two already
  have hlength : 3 = (spell body).length := congrArg List.length (Payload.text.inj hpayload)
  have hwidth := hreads.width
  have hclosing := closing.width_pos
  simp only [spell_cons, spell_append, spell_nil, List.length_append, Glyph.length_bytes, hopening,
    Glyph.width, List.length_cons, List.length_nil] at hwidth
  omega

end LoxLexer
