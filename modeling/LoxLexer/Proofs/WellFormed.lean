import LoxLexer.Proofs.Reporting
import LoxLexer.Proofs.Unicode

/-!
# `LoxLexer.Proofs.WellFormed` — well-formed text in, well-formed text out

Offsets, lengths and columns count bytes, and texts are cut by them. On well-formed UTF-8 no cut goes
through a character: a piece starts and ends between two characters, the quotes that a string loses are
one byte each, and lines are cut at newlines. So nothing that a scan returns or reports has a broken
character in it.

## Contents
- `IsCharBoundary` — an offset between two characters.
- `exists_chars` — a piece of a well-formed text is a stretch of its scalar values.
- `isUtf8_lineText`, `isUtf8_errorBlock` — the line around any offset, and the block that quotes it.
- `WellFormed` — what is claimed of a scan. `scan_isUtf8` proves it, together with the same for the report.
-/

namespace LoxLexer

/-- The offset is between two characters of a well-formed text, or at one of its ends. -/
def IsCharBoundary (text : Bytes) (offset : Nat) : Prop :=
  ∃ before after, text = encode (before ++ after) ∧ offset = (encode before).length

/-- All the spans of a scan, that of the closing token included. -/
def Scan.allSpans (s : Scan) : List Span := s.tokens.map Token.span ++ s.errors.map LexicalError.span

/-- **Nothing in the scan has a broken character in it.** -/
structure WellFormed (source : Bytes) (s : Scan) : Prop where
  boundaries : ∀ span ∈ s.allSpans,
    IsCharBoundary source span.offset ∧ IsCharBoundary source (span.offset + span.length)
  lexemes : ∀ span ∈ s.allSpans, IsUtf8 (span.slice source)
  payloads : ∀ t ∈ s.tokens, ∀ text, t.payload = .text text → IsUtf8 text
  messages : ∀ e ∈ s.errors, IsUtf8 e.message

/-! ## Pieces of a well-formed text -/

section Pieces

variable {source : Bytes} {placed : Placed}

/-- **A piece is a stretch of scalar values.** -/
theorem exists_chars (h : IsUtf8 source) (hmem : placed ∈ placedPieces source) :
    ∃ before chars after, source = encode (before ++ chars ++ after) ∧
      placed.offset = (encode before).length ∧ placed.piece.lexeme = chars.map Glyph.ofChar := by
  obtain ⟨all, rfl⟩ := isUtf8_iff_encode.mp h
  obtain ⟨ps, qs, hpieces, hoffset⟩ := mem_place.mp hmem
  have hall : all.map Glyph.ofChar = lexemes ps ++ placed.piece.lexeme ++ lexemes qs := by
    rw [← decode_encode, ← lexemes_pieces (decode (encode all)), ← lexemes, hpieces, lexemes_append,
      lexemes_cons, List.append_assoc]
  obtain ⟨front, after, rfl, hfront, -⟩ := List.map_eq_append_iff.mp hall
  obtain ⟨before, chars, rfl, hbefore, hchars⟩ := List.map_eq_append_iff.mp hfront
  refine ⟨before, chars, after, rfl, ?_, hchars.symm⟩
  rw [hoffset, Nat.zero_add, textOf, ← hbefore, spell_map_ofChar]

theorem forall_mem_lexeme (h : IsUtf8 source) (hmem : placed ∈ placedPieces source) :
    ∀ g ∈ placed.piece.lexeme, g ∈ Set.range Glyph.ofChar := by
  intro g hg
  obtain ⟨before, chars, after, -, -, hlexeme⟩ := exists_chars h hmem
  rw [hlexeme] at hg
  exact mem_range_of_mem_map_ofChar hg

/-- A piece starts and ends between characters. -/
theorem boundaries_of_mem_placedPieces (h : IsUtf8 source) (hmem : placed ∈ placedPieces source) :
    IsCharBoundary source placed.offset ∧
      IsCharBoundary source (placed.offset + placed.piece.width) := by
  obtain ⟨before, chars, after, hsource, hoffset, hlexeme⟩ := exists_chars h hmem
  have hwidth : placed.piece.width = (encode chars).length := by
    rw [Piece.width, Piece.bytes, hlexeme, spell_map_ofChar]
  constructor
  · exact ⟨before, chars ++ after, by rw [hsource, List.append_assoc], hoffset⟩
  · refine ⟨before ++ chars, after, hsource, ?_⟩
    rw [hoffset, hwidth, encode_append, List.length_append]

/-- A well-formed text ends behind a character. -/
theorem isCharBoundary_length (h : IsUtf8 source) : IsCharBoundary source source.length := by
  obtain ⟨chars, rfl⟩ := isUtf8_iff_encode.mp h
  exact ⟨chars, [], by rw [List.append_nil], rfl⟩

end Pieces

/-- Both quotes of a string are single bytes, so its content is cut between characters. -/
theorem Munched.isUtf8_stringContent {p : Piece} {follow : List Glyph} (h : Munched p follow)
    (hform : p.form = .string) (hchars : ∀ g ∈ p.lexeme, g ∈ Set.range Glyph.ofChar) :
    IsUtf8 (stringContent p.bytes) := by
  cases h with
  | @string g body close _ hg hbody hclose =>
    have hopening : g = ⟨'"'.toUInt8, []⟩ := Glyph.eq_of_is (hchars g (by simp [Piece.lexeme])) hg
    have hclosing : close = ⟨'"'.toUInt8, []⟩ :=
      Glyph.eq_of_is (hchars close (by simp [Piece.lexeme])) hclose
    have hbytes : Piece.bytes ⟨.string, g, body ++ [close]⟩ =
        '"'.toUInt8 :: (spell body ++ ['"'.toUInt8]) := by
      simp [Piece.bytes, Piece.lexeme, Glyph.bytes, hopening, hclosing]
    rw [hbytes, stringContent_cons_concat]
    exact isUtf8_spell fun x hx => hchars x (by simp [Piece.lexeme, hx])
  | _ => cases hform

/-- The span of a token or an error is that of a piece, but for the closing token. -/
theorem exists_placed_of_mem_allSpans {source : Bytes} {span : Span}
    (h : span ∈ (scan source).allSpans) :
    span = ⟨source.length, 0⟩ ∨ ∃ placed ∈ placedPieces source, placed.span = span := by
  simp only [Scan.allSpans, List.mem_append, List.mem_map] at h
  rcases h with ⟨t, ht, rfl⟩ | ⟨e, he, rfl⟩
  · rcases mem_tokens_scan.mp ht with ⟨placed, hmem, hplaced⟩ | rfl
    · exact Or.inr ⟨placed, hmem, (Placed.span_eq_of_token? hplaced).symm⟩
    · exact Or.inl rfl
  · obtain ⟨placed, hmem, hplaced⟩ := List.mem_filterMap.mp he
    exact Or.inr ⟨placed, hmem, (Placed.span_eq_of_error? hplaced).symm⟩

/-! ## Lines and blocks -/

/-- The first line is cut off at a newline, or is the whole text. -/
theorem IsUtf8.firstLine {text : Bytes} (h : IsUtf8 text) : IsUtf8 (firstLine text) := by
  obtain ⟨behind, hsplit, hbehind⟩ := exists_behind_firstLine text
  cases behind with
  | nil =>
    rw [List.append_nil] at hsplit
    rwa [← hsplit]
  | cons b rest =>
    rw [hsplit, hbehind b rfl] at h
    exact h.of_newline.1

/-- What comes behind whole lines is cut off at a newline as well. -/
theorem IsUtf8.of_closedLines {above rest : Bytes} (habove : ClosedLines above)
    (h : IsUtf8 (above ++ rest)) : IsUtf8 rest := by
  rcases List.eq_nil_or_concat' above with rfl | ⟨lines, b, rfl⟩
  · exact h
  · have hb : b = newline := habove b (by simp)
    rw [hb, List.append_assoc] at h
    exact h.of_newline.2

/-- The line around any offset is well formed, be the offset between two characters or not. -/
theorem isUtf8_lineText {source : Bytes} (h : IsUtf8 source) (offset : Nat) :
    IsUtf8 (Location.ofOffset source offset).lineText := by
  obtain ⟨above, front, hsource, habove, hfront, -, hlocation⟩ := exists_location source offset
  rw [hsource, List.append_assoc] at h
  have hline := (IsUtf8.of_closedLines habove h).firstLine
  rw [firstLine_append_of_not_mem hfront] at hline
  rw [hlocation]
  exact hline

theorem isUtf8_replicate (n : Nat) {b : UInt8} (h : b < 0x80) : IsUtf8 (List.replicate n b) :=
  isUtf8_of_all_lt (List.all_eq_true.mpr fun _ hx => by simpa [List.eq_of_mem_replicate hx] using h)

theorem isUtf8_spaces (n : Nat) : IsUtf8 (spaces n) := isUtf8_replicate n (by decide)

theorem isUtf8_numeral (n : Nat) : IsUtf8 (Decimal.numeral n) := by
  refine isUtf8_of_all_lt (List.all_eq_true.mpr ?_)
  intro b hb
  have hdigit := Decimal.isDigit_of_mem_numeral hb
  simp only [Decimal.isDigit, Bool.and_eq_true, decide_eq_true_eq] at hdigit
  exact decide_eq_true (UInt8.lt_of_le_of_lt hdigit.2 (by decide))

/-- **A block is well formed** where its message and the text that it quotes are. -/
theorem isUtf8_errorBlock {source message : Bytes} (hsource : IsUtf8 source) (hmessage : IsUtf8 message)
    (span : Span) : IsUtf8 (errorBlock source message span) := by
  have hline := isUtf8_lineText hsource span.offset
  unfold errorBlock
  dsimp only
  generalize Location.ofOffset source span.offset = place at hline ⊢
  generalize Decimal.digitCount place.line + 2 = width
  have hspaces := isUtf8_spaces width
  have hmargin : IsUtf8 (ascii "| ") := isUtf8_of_all_lt (by decide)
  have hseparator : IsUtf8 (ascii " | ") := isUtf8_of_all_lt (by decide)
  refine ((((hmessage.endLine).append ?bar).append ?quoted).append ?carets).append ?notice
  case bar => exact (hspaces.append (isUtf8_of_all_lt (by decide))).endLine
  case quoted =>
    have hnumber : IsUtf8 (rightAlign (width - 1) (Decimal.numeral place.line)) :=
      (isUtf8_spaces _).append (isUtf8_numeral _)
    exact ((hnumber.append hseparator).append hline).endLine
  case carets =>
    have hcarets := isUtf8_replicate (min span.length (place.lineText.length - place.column))
      (by decide : '^'.toUInt8 < 0x80)
    exact (((hspaces.append hmargin).append (isUtf8_spaces _)).append hcarets).endLine
  case notice =>
    split
    · exact (hspaces.append (isUtf8_of_all_lt (by decide))).endLine
    · exact isUtf8_nil

/-! ## Scans and reports -/

/-- The wording of a fault quotes its piece, or nothing. -/
theorem isUtf8_message {p : Piece} {fault : Fault} (h : p.reading = .faulty fault)
    (hbytes : IsUtf8 p.bytes) : IsUtf8 fault.message := by
  have hclosing : IsUtf8 (ascii "'.") := isUtf8_of_all_lt (by decide)
  rcases Piece.reading_eq_faulty h with ⟨-, rfl⟩ | ⟨-, rfl⟩ | ⟨-, rfl⟩ | ⟨-, rfl⟩ | ⟨-, rfl⟩
  · have hopening : IsUtf8 (ascii "Unexpected character '") := isUtf8_of_all_lt (by decide)
    exact (hopening.append hbytes).append hclosing
  · exact isUtf8_of_all_lt (by decide)
  · exact isUtf8_of_all_lt (by decide)
  · exact IsUtf8.append (isUtf8_of_all_lt (by decide)) hbytes
  · exact IsUtf8.append (isUtf8_of_all_lt (by decide)) hbytes

/-- The text that a token carries is its piece, or its piece without the quotes. -/
theorem isUtf8_payload {p : Piece} {follow : List Glyph} (hmunched : Munched p follow)
    (hchars : ∀ g ∈ p.lexeme, g ∈ Set.range Glyph.ofChar) {kind : Kind} {text : Bytes}
    (h : p.reading = .token kind (.text text)) : IsUtf8 text := by
  rcases Piece.reading_eq_token h with ⟨s, -, -, hs⟩ | ⟨-, ⟨k, -, hk⟩ | ⟨-, hword⟩⟩ |
    ⟨-, -, n, -, hn⟩ | ⟨-, -, x, -, hx⟩ | ⟨hform, -, hcontent⟩
  · cases hs
  · cases hk
  · rw [Payload.text.inj hword]
    exact isUtf8_spell hchars
  · cases hn
  · cases hx
  · rw [Payload.text.inj hcontent]
    exact hmunched.isUtf8_stringContent hform hchars

/-- **The scan of a well-formed text is well formed.** -/
theorem wellFormed_scan {source : Bytes} (h : IsUtf8 source) : WellFormed source (scan source) := by
  have hchars : ∀ placed ∈ placedPieces source, ∀ g ∈ placed.piece.lexeme,
      g ∈ Set.range Glyph.ofChar := fun _ => forall_mem_lexeme h
  constructor
  · intro span hspan
    rcases exists_placed_of_mem_allSpans hspan with rfl | ⟨placed, hmem, rfl⟩
    · exact ⟨isCharBoundary_length h, isCharBoundary_length h⟩
    · exact boundaries_of_mem_placedPieces h hmem
  · intro span hspan
    rcases exists_placed_of_mem_allSpans hspan with rfl | ⟨placed, hmem, rfl⟩
    · exact isUtf8_nil
    · rw [slice_of_mem_placedPieces hmem]
      exact isUtf8_spell (hchars placed hmem)
  · intro t ht text htext
    rcases mem_tokens_scan.mp ht with ⟨placed, hmem, hplaced⟩ | rfl
    · obtain ⟨rest, -, hmunched⟩ := munched_of_mem_placedPieces hmem
      have hreading := (Placed.token?_eq_some.mp hplaced).1
      rw [htext] at hreading
      exact isUtf8_payload hmunched (hchars placed hmem) hreading
    · cases htext
  · intro e he
    obtain ⟨placed, hmem, hplaced⟩ := List.mem_filterMap.mp he
    exact isUtf8_message (Placed.error?_eq_some.mp hplaced).1 (isUtf8_spell (hchars placed hmem))

/-- **Well-formed text in, well-formed text out.** All that scanning a well-formed text returns is cut
    between characters, and so is every line of the text that can be quoted and the whole report. -/
theorem scan_isUtf8 {source : Bytes} (h : IsUtf8 source) :
    WellFormed source ((Report.ofSource source).scan source).1 ∧
      (∀ offset, IsUtf8 (Location.ofOffset source offset).lineText) ∧
      IsUtf8 ((Report.ofSource source).scan source).2.text := by
  have hscan := wellFormed_scan h
  refine ⟨hscan, isUtf8_lineText h, ?_⟩
  rw [Report.text_scan]
  apply isUtf8_flatMap
  intro e he
  exact (isUtf8_errorBlock h (hscan.messages e he) e.span).endLine

/-- A string with a character of two bytes, and a stray one of three on the same line. -/
theorem scan_isUtf8_multiByte :
    let source : Bytes := [0x22, 0xc3, 0xa9, 0x22, 0x20, 0xe2, 0x82, 0xac]
    IsUtf8 source ∧ WellFormed source ((Report.ofSource source).scan source).1 ∧
      (∀ offset, IsUtf8 (Location.ofOffset source offset).lineText) ∧
      IsUtf8 ((Report.ofSource source).scan source).2.text := by
  intro source
  have hsource : IsUtf8 source := isUtf8_iff_encode.mpr ⟨['"', 'é', '"', ' ', '€'], by decide⟩
  exact ⟨hsource, scan_isUtf8 hsource⟩

end LoxLexer
