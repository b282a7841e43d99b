import LoxLexer.Proofs.Placement

/-!
# `LoxLexer.Proofs.Lines` — scanning line by line

A newline separates. Whatever a text ends in, unless a string or a block comment is still open there, the
newline after it closes it just as the end of the text does, and what comes after the newline is scanned
as a text of its own. Only one piece notices the newline at all: a line comment, which takes it.

## Contents
- `newlineGlyph`, `newlinePiece` — the newline as a character and as a piece.
- `exists_cut_newline` — the pieces of a text with a newline behind it: one blank more, or a longer line
  comment, and in either case the same tokens and errors.
- `scan_newline_append` — the scan of two texts with a newline between them.
-/

namespace LoxLexer

/-- The newline, decoded. -/
def newlineGlyph : Glyph := ⟨newline, []⟩

/-- The newline as a piece of text. -/
def newlinePiece : Piece := ⟨.blank, newlineGlyph, []⟩

/-- No sequence runs into a newline, so a text in front of one is decoded as if it ended there. -/
theorem decode_append_newline (before after : Bytes) :
    decode (before ++ newline :: after) = decode before ++ newlineGlyph :: decode after := by
  have hafresh : StartsAfresh (newline :: after) := startsAfresh_cons (by decide)
  have hnewline : decode (newline :: after) = newlineGlyph :: decode after := by
    rw [decode_cons, Glyph.ofLead, Glyph.trail_of_continuations_eq_zero (by decide)]
    rfl
  have hsplit := decode_spell_append (decoded_decode before) hafresh
  rw [spell_decode, hnewline] at hsplit
  exact hsplit

/-- Pieces without an open end stay, and the newline is a blank behind them. -/
theorem cut_newline_of_closed {ps : List Piece} (h : Cut ps [])
    (hclosed : ∀ p ∈ ps.getLast?, p.isUnclosed = false) (follow : List Glyph) :
    Cut (ps ++ [newlinePiece]) follow := by
  have hnewline : newlineGlyph.isBlank = true := by decide
  refine cut_append.mpr ⟨?_, .cons (.blank hnewline) .nil⟩
  apply h.swap (.blank hnewline _ _)
  intro p hp hopen _
  rw [hclosed p hp] at hopen
  cases hopen

/-- A line comment at the end of the text takes the newline. -/
theorem munched_newline_of_lineComment {p : Piece} (h : Munched p []) (hopen : p.isUnclosed = true)
    (hform : p.form = .lineComment) (follow : List Glyph) :
    Munched { p with tail := p.tail ++ [newlineGlyph] } follow := by
  cases h with
  | lastComment hg hsecond hbody => exact .lineComment hg hsecond hbody (by decide)
  | lineComment _ _ _ hclose => simp [Piece.isUnclosed, hclose] at hopen
  | _ => cases hform

/-- **A newline behind a text** adds no token and no error and moves none, unless a string or a block
    comment is open at the end of the text. -/
theorem exists_cut_newline {ps : List Piece} (h : Cut ps [])
    (hopen : ∀ p ∈ ps, p.isUnclosed = true → p.form = .lineComment) :
    ∃ qs, lexemes qs = lexemes ps ++ [newlineGlyph] ∧ (∀ follow, Cut qs follow) ∧
      (∀ offset, tokensAt offset qs = tokensAt offset ps) ∧
      (∀ offset, errorsAt offset qs = errorsAt offset ps) := by
  by_cases hclosed : ∀ p ∈ ps.getLast?, p.isUnclosed = false
  · -- the newline is a blank of its own
    refine ⟨ps ++ [newlinePiece], ?_, cut_newline_of_closed h hclosed, ?_, ?_⟩
    · rw [lexemes_append]
      rfl
    · intro offset
      rw [tokensAt_append]
      exact List.append_nil _
    · intro offset
      rw [errorsAt_append]
      exact List.append_nil _
  · -- the last piece is a line comment, and it grows by the newline
    simp only [not_forall, Bool.not_eq_false, exists_prop] at hclosed
    obtain ⟨p, hp, hunclosed⟩ := hclosed
    obtain ⟨front, rfl⟩ := List.getLast?_eq_some_iff.mp hp
    have hform : p.form = .lineComment := hopen p (by simp) hunclosed
    obtain ⟨hfront, hlast⟩ := cut_append.mp h
    have hmunched : Munched p [] := (cut_cons.mp hlast).1
    let longer : Piece := { p with tail := p.tail ++ [newlineGlyph] }
    have hreading : p.reading = .skipped :=
      Piece.reading_eq_skipped_iff.mpr (Or.inr (Or.inl hform))
    have hreading' : longer.reading = .skipped :=
      Piece.reading_eq_skipped_iff.mpr (Or.inr (Or.inl hform))
    refine ⟨front ++ [longer], ?_, ?_, ?_, ?_⟩
    · simp [lexemes_append, longer, Piece.lexeme]
    · intro follow
      have hlonger := munched_newline_of_lineComment hmunched hunclosed hform follow
      refine cut_append.mpr ⟨?_, .cons hlonger .nil⟩
      -- the pieces in front see the comment that they saw before, and behind it a blank
      have hswap : SafeSwap (lexemes [p] ++ []) (lexemes [p] ++ newlineGlyph :: follow) :=
        (SafeSwap.blank (by decide) [] follow).append _
      have hlexemes : lexemes [longer] ++ follow = lexemes [p] ++ newlineGlyph :: follow := by
        simp [longer, Piece.lexeme]
      rw [hlexemes]
      apply hfront.swap hswap
      intro _ _ _ hnil
      cases hnil
    · intro offset
      rw [tokensAt_append, tokensAt_append]
      simp [tokensAt, place, Placed.token?, hreading, hreading']
    · intro offset
      rw [errorsAt_append, errorsAt_append]
      simp [errorsAt, place, Placed.error?, hreading, hreading']

/-- Where neither a string nor a block comment is reported as open, only a line comment can be. -/
theorem form_of_isUnclosed {offset : Nat} {ps : List Piece}
    (h : ∀ e ∈ errorsAt offset ps, e.fault ≠ .unterminatedString ∧ e.fault ≠ .unterminatedComment)
    {p : Piece} (hp : p ∈ ps) (hopen : p.isUnclosed = true) : p.form = .lineComment := by
  have hreported : ∀ fault, p.reading = .faulty fault →
      fault ≠ .unterminatedString ∧ fault ≠ .unterminatedComment := by
    intro fault hreading
    obtain ⟨e, he, rfl⟩ := exists_error_iff.mpr ⟨p, hp, hreading⟩
    exact h e he
  unfold Piece.isUnclosed at hopen
  split at hopen
  · rename_i hform
    have hreading : p.reading = .faulty .unterminatedString := by unfold Piece.reading; rw [hform]
    exact absurd rfl (hreported _ hreading).1
  · rename_i hform
    have hreading : p.reading = .faulty .unterminatedComment := by unfold Piece.reading; rw [hform]
    exact absurd rfl (hreported _ hreading).2
  · rename_i hform
    exact hform
  · cases hopen

/-- **Scanning line by line.** Where a text ends neither in a string nor in a block comment, its scan and
    that of any other text make up the scan of the two with a newline between them. -/
theorem scan_newline_append {before : Bytes} (after : Bytes)
    (h : ∀ e ∈ (scan before).errors,
      e.fault ≠ .unterminatedString ∧ e.fault ≠ .unterminatedComment) :
    (scan (before ++ [newline] ++ after)).tokens = (scan before).properTokens ++
        (scan after).tokens.map (Token.shift (before.length + 1)) ∧
      (scan (before ++ [newline] ++ after)).errors = (scan before).errors ++
        (scan after).errors.map (LexicalError.shift (before.length + 1)) := by
  have hopen := fun p hp => form_of_isUnclosed (p := p) h hp
  obtain ⟨qs, hlexemes, hcut, htokens, herrors⟩ :=
    exists_cut_newline (cut_pieces (decode before)) hopen
  rw [lexemes, lexemes, lexemes_pieces, ← lexemes] at hlexemes
  have hpieces : pieces (decode (before ++ [newline] ++ after)) = qs ++ pieces (decode after) := by
    rw [List.append_assoc, List.singleton_append, decode_append_newline, List.append_cons, ← hlexemes,
      pieces_lexemes_append (hcut _)]
  have hlength : 0 + (textOf qs).length = 0 + (before.length + 1) := by
    rw [textOf, hlexemes, spell_append, spell_decode, List.length_append]
    rfl
  have hend : endToken (before ++ [newline] ++ after).length =
      (endToken after.length).shift (before.length + 1) := by
    simp only [List.length_append, List.length_singleton, endToken, Token.shift, Span.shift,
      Nat.add_comm]
  constructor
  · rw [tokens_scan, tokens_scan, properTokens_scan, hpieces, tokensAt_append, htokens, hlength,
      tokensAt_add, hend, List.append_assoc, List.map_append]
    rfl
  · rw [errors_scan, errors_scan, errors_scan, hpieces, errorsAt_append, herrors, hlength,
      errorsAt_add]

/-- A number, a point and the first byte of a broken sequence, with an open string on the next line. -/
theorem scan_newline_append_brokenSequence :
    let before : Bytes := [0x31, 0x2e, 0xe2]
    (∀ e ∈ (scan before).errors,
        e.fault ≠ .unterminatedString ∧ e.fault ≠ .unterminatedComment) ∧
      (scan [0x31, 0x2e, 0xe2, 0x0a, 0x22]).tokens = (scan before).properTokens ++
        (scan [0x22]).tokens.map (Token.shift 4) ∧
      (scan [0x31, 0x2e, 0xe2, 0x0a, 0x22]).errors = (scan before).errors ++
        (scan [0x22]).errors.map (LexicalError.shift 4) := by
  intro before
  have herrors : (scan before).errors = [⟨.unexpectedCharacter [0xe2], ⟨2, 1⟩⟩] := by decide +kernel
  have hclosed : ∀ e ∈ (scan before).errors,
      e.fault ≠ .unterminatedString ∧ e.fault ≠ .unterminatedComment := by
    rw [herrors]
    decide
  exact ⟨hclosed, scan_newline_append [0x22] hclosed⟩

end LoxLexer
