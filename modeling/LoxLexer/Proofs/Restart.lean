import LoxLexer.Proofs.Placement

/-!
# `LoxLexer.Proofs.Restart` — scanning can start again wherever a token or an error starts or ends

A text cut at such a place scans in two parts: the tokens and errors of the whole are those of the part
before the cut and those of the part behind it, moved to where that part starts. Neither part sees the
other, so after a change of the text only the parts that changed need scanning again.

The suffix is easy: munching never looks back. The prefix is not: a piece may have been munched with two
characters of the other part in view, and the last character before the cut may have been decoded with
bytes of it in view. Both come out the same when the text ends at the cut (`pieces_decode_split`).
-/

namespace LoxLexer

/-- A place where the span of a proper token or of an error starts or ends. -/
def Scan.IsBoundary (s : Scan) (p : Nat) : Prop :=
  ∃ span ∈ s.spans, p = span.offset ∨ p = span.offset + span.length

/-- At a boundary the pieces of the text fall in two. -/
theorem exists_split_of_isBoundary {source : Bytes} {p : Nat} (h : (scan source).IsBoundary p) :
    ∃ ps qs, pieces (decode source) = ps ++ qs ∧ (textOf ps).length = p := by
  obtain ⟨span, hspan, hp⟩ := h
  obtain ⟨placed, hplaced, rfl⟩ := exists_placed_of_mem_spans hspan
  obtain ⟨before, after, hpieces, hoffset⟩ := mem_place.mp hplaced
  rw [Nat.zero_add] at hoffset
  rcases hp with hstart | hstop
  · exact ⟨before, placed.piece :: after, hpieces, by rw [hstart, ← hoffset]; rfl⟩
  · refine ⟨before ++ [placed.piece], after, by rw [hpieces, List.append_assoc]; rfl, ?_⟩
    rw [textOf_append, List.length_append, length_textOf_cons, textOf_nil, ← hoffset, hstop]
    rfl

/-- **A scan in two parts**, wherever the pieces of the text fall in two. -/
theorem scan_of_split {source : Bytes} {ps qs : List Piece}
    (h : pieces (decode source) = ps ++ qs) :
    (scan source).properTokens = (scan (textOf ps)).properTokens ++
        (scan (textOf qs)).properTokens.map (Token.shift (textOf ps).length) ∧
      (scan source).errors = (scan (textOf ps)).errors ++
        (scan (textOf qs)).errors.map (LexicalError.shift (textOf ps).length) := by
  obtain ⟨-, hps, hqs⟩ := pieces_decode_split h
  constructor
  · rw [properTokens_scan, properTokens_scan, properTokens_scan, h, hps, hqs, tokensAt_append,
      tokensAt_add]
  · rw [errors_scan, errors_scan, errors_scan, h, hps, hqs, errorsAt_append, errorsAt_add]

/-- **Scanning is restartable.** At the start and at the end of every token and every error, the text can
    be taken apart: the scan is that of the part before and that of the part behind, moved to its place.
    The closing token stands at the end of the whole text. -/
theorem scan_take_drop {source : Bytes} {p : Nat} (h : (scan source).IsBoundary p) :
    (scan source).properTokens = (scan (source.take p)).properTokens ++
        (scan (source.drop p)).properTokens.map (Token.shift p) ∧
      (scan source).errors = (scan (source.take p)).errors ++
        (scan (source.drop p)).errors.map (LexicalError.shift p) ∧
      (scan source).tokens.getLast? = some (endToken source.length) := by
  obtain ⟨ps, qs, hpieces, rfl⟩ := exists_split_of_isBoundary h
  obtain ⟨htext, -⟩ := pieces_decode_split hpieces
  have htake : source.take (textOf ps).length = textOf ps := by rw [htext, List.take_left]
  have hdrop : source.drop (textOf ps).length = textOf qs := by rw [htext, List.drop_left]
  obtain ⟨htokens, herrors⟩ := scan_of_split hpieces
  rw [htake, hdrop]
  refine ⟨htokens, herrors, ?_⟩
  rw [tokens_scan, List.getLast?_append]
  rfl

/-- A number, a point, the first byte of a broken sequence and a string, cut between the point and that
    byte. -/
theorem scan_take_drop_brokenSequence :
    let source : Bytes := [0x31, 0x2e, 0xe2, 0x22, 0x22]
    (scan source).IsBoundary 2 ∧
      (scan source).properTokens = (scan [0x31, 0x2e]).properTokens ++
        (scan [0xe2, 0x22, 0x22]).properTokens.map (Token.shift 2) ∧
      (scan source).errors = (scan [0x31, 0x2e]).errors ++
        (scan [0xe2, 0x22, 0x22]).errors.map (LexicalError.shift 2) ∧
      (scan source).tokens.getLast? = some (endToken 5) := by
  intro source
  have herror : (⟨.unexpectedCharacter [0xe2], ⟨2, 1⟩⟩ : LexicalError) ∈ (scan source).errors := by
    decide +kernel
  have hboundary : (scan source).IsBoundary 2 :=
    ⟨⟨2, 1⟩, Scan.mem_spans.mpr (Or.inr ⟨_, herror, rfl⟩), Or.inl rfl⟩
  exact ⟨hboundary, scan_take_drop hboundary⟩

end LoxLexer
