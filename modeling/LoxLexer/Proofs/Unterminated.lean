import LoxLexer.Proofs.LongestMatch
import LoxLexer.Proofs.Outcome

/-!
# `LoxLexer.Proofs.Unterminated` — strings and block comments without an end

A string or a block comment that is never closed takes the rest of the text, so nothing can follow it: there
is one such fault in a scan at most, it is the last error, and it ends where the text ends. Seen from the
scanner, the turn that starts with the opener is the last turn. The step that hit the end of the text is
taken back before the fault is noted, and has width zero, so no character of the piece is left to be
scanned again.

## Contents
- `Fault.isUnterminated`, `Unterminated` — the two faults, and the characters that each of them is about,
  said without reference to munching. `Munched.unterminated` and `Unterminated.exists_munched` are the two
  directions.
- `EndsScan`, `endsScan_of_unterminated` — what is in front of such a fault; it is the only one
  (`countP_isUnterminated_le_one`).
- `Scanner.noted_of_unterminated` — the turn that starts with an opener that is never closed.
- `UnterminatedOnce`, `scan_unterminated` — what holds of a text and its scan, for every text.
-/

namespace LoxLexer

/-! ## Openers without an end -/

/-- The fault is a missing end. -/
def Fault.isUnterminated : Fault → Bool
  | .unterminatedString | .unterminatedComment => true
  | _ => false

/-- **The characters are an opener and no end**: a quote and no other quote, or `/*` and behind it no `*/`.
    The star of the opener is no part of an end, so `/*/` is not closed. -/
inductive Unterminated : Fault → List Glyph → Prop where
  | string {quote body} (hquote : quote.is '"' = true) (hbody : ∀ x ∈ body, x.is '"' = false) :
      Unterminated .unterminatedString (quote :: body)
  | comment {slash star body} (hslash : slash.is '/' = true) (hstar : star.is '*' = true)
      (hbody : NoClose body) : Unterminated .unterminatedComment (slash :: star :: body)

/-- A piece with this fault has nothing behind it, and it is an opener without an end. -/
theorem Munched.unterminated {p : Piece} {follow : List Glyph} {fault : Fault} (h : Munched p follow)
    (hreading : p.reading = .faulty fault) (hfault : fault.isUnterminated = true) :
    follow = [] ∧ Unterminated fault p.lexeme := by
  rcases Piece.reading_eq_faulty hreading with ⟨-, rfl⟩ | ⟨hform, rfl⟩ | ⟨hform, rfl⟩ | ⟨-, rfl⟩ | ⟨-, rfl⟩
  · cases hfault
  · cases h with
    | openString hquote hbody => exact ⟨rfl, .string hquote hbody⟩
    | _ => cases hform
  · cases h with
    | openComment hslash hstar hbody => exact ⟨rfl, .comment hslash hstar hbody⟩
    | _ => cases hform
  · cases hfault
  · cases hfault

/-- Where an opener without an end starts, munching takes all of it as one faulty piece. -/
theorem Unterminated.exists_munched {fault : Fault} {glyphs : List Glyph} (h : Unterminated fault glyphs) :
    ∃ p : Piece, p.lexeme = glyphs ∧ Munched p [] ∧ p.reading = .faulty fault := by
  cases h with
  | @string quote body hquote hbody =>
    exact ⟨⟨.openString, quote, body⟩, rfl, .openString hquote hbody, rfl⟩
  | @comment slash star body hslash hstar hbody =>
    exact ⟨⟨.openComment, slash, star :: body⟩, rfl, .openComment hslash hstar hbody, rfl⟩

/-! ## What is in front of the fault -/

/-- **The error ends the scan.** Its span reaches to the end of the text, it is the last error, and all
    other errors and all tokens end where it starts, or before. -/
structure EndsScan (source : Bytes) (s : Scan) (e : LexicalError) : Prop where
  stop : e.span.offset + e.span.length = source.length
  errors : ∃ before, s.errors = before ++ [e] ∧
    ∀ other ∈ before, other.span.offset + other.span.length ≤ e.span.offset
  tokens : ∀ t ∈ s.properTokens, t.span.offset + t.span.length ≤ e.span.offset

/-- An error is about one byte at least. -/
theorem length_span_pos {source : Bytes} {e : LexicalError} (h : e ∈ (scan source).errors) :
    0 < e.span.length := by
  obtain ⟨placed, -, herror⟩ := List.mem_filterMap.mp h
  rw [Placed.span_eq_of_error? herror]
  exact placed.piece.width_pos

/-- A piece with this fault is the last one of its text. -/
theorem exists_pieces_of_unterminated {source : Bytes} {placed : Placed} {fault : Fault}
    (hmem : placed ∈ placedPieces source) (hreading : placed.piece.reading = .faulty fault)
    (hfault : fault.isUnterminated = true) : ∃ before,
      pieces (decode source) = before ++ [placed.piece] ∧ placed.offset = (textOf before).length := by
  obtain ⟨before, after, hpieces, hoffset⟩ := mem_place.mp hmem
  have hcut := cut_pieces (decode source)
  rw [hpieces] at hcut
  obtain ⟨hmunched, -⟩ := cut_cons.mp (cut_append.mp hcut).2
  rw [List.append_nil] at hmunched
  obtain rfl : after = [] := lexemes_eq_nil_iff.mp (hmunched.unterminated hreading hfault).1
  exact ⟨before, hpieces, hoffset.trans (Nat.zero_add _)⟩

/-- **A missing end ends the scan.** -/
theorem endsScan_of_unterminated {source : Bytes} {e : LexicalError} (he : e ∈ (scan source).errors)
    (hfault : e.fault.isUnterminated = true) : EndsScan source (scan source) e := by
  obtain ⟨placed, hmem, herror⟩ := List.mem_filterMap.mp he
  obtain ⟨hreading, hspan⟩ := Placed.error?_eq_some.mp herror
  obtain ⟨before, hpieces, hoffset⟩ := exists_pieces_of_unterminated hmem hreading hfault
  -- whatever is picked from the pieces in front lies in front of the offset of the last piece
  have hfront : ∀ other ∈ place 0 before, other.offset + other.piece.width ≤ e.span.offset := by
    intro other hother
    rw [hspan]
    show other.offset + other.piece.width ≤ placed.offset
    rw [hoffset, ← Nat.zero_add (textOf before).length]
    exact stop_le_of_mem_place hother
  obtain ⟨offset, piece⟩ := placed
  obtain rfl : offset = (textOf before).length := hoffset
  constructor
  · have hlength := congrArg List.length (textOf_pieces source)
    rw [hpieces, textOf_append, List.length_append, length_textOf_cons] at hlength
    rw [hspan]
    exact hlength
  · refine ⟨errorsAt 0 before, ?_, ?_⟩
    · rw [errors_scan, hpieces, errorsAt_append, Nat.zero_add, errorsAt_cons, herror]
      rfl
    · intro other hother
      obtain ⟨placed, hplaced, hpick⟩ := List.mem_filterMap.mp hother
      rw [Placed.span_eq_of_error? hpick]
      exact hfront placed hplaced
  · have hnone : Placed.token? ⟨(textOf before).length, piece⟩ = none := by
      simp only [Placed.token?, hreading]
    intro t ht
    rw [properTokens_scan, hpieces, tokensAt_append, Nat.zero_add, tokensAt_cons, hnone] at ht
    obtain ⟨placed, hplaced, hpick⟩ := List.mem_filterMap.mp (List.append_nil _ ▸ ht)
    rw [Placed.span_eq_of_token? hpick]
    exact hfront placed hplaced

/-- **There is one missing end at most**: a second one would have nothing left in front of the end. -/
theorem countP_isUnterminated_le_one (source : Bytes) :
    (scan source).errors.countP (·.fault.isUnterminated) ≤ 1 := by
  by_cases hnone : ∃ e ∈ (scan source).errors, e.fault.isUnterminated = true
  · obtain ⟨e, he, hfault⟩ := hnone
    obtain ⟨before, herrors, hbefore⟩ := (endsScan_of_unterminated he hfault).errors
    have hfront : before.countP (·.fault.isUnterminated) = 0 := by
      rw [List.countP_eq_zero]
      intro other hother hunterminated
      -- another one in front would reach to the end of the text as well
      have hmem : other ∈ (scan source).errors := herrors ▸ List.mem_append_left _ hother
      have hstop := (endsScan_of_unterminated hmem hunterminated).stop
      have hstop' := (endsScan_of_unterminated he hfault).stop
      have hle := hbefore other hother
      have hlength := length_span_pos he
      omega
    rw [herrors, List.countP_append, hfront, List.countP_singleton, hfault]
    decide
  · rw [List.countP_eq_zero.mpr fun e he hfault => hnone ⟨e, he, hfault⟩]
    exact Nat.zero_le 1

/-- The error is about an opener and no end. -/
theorem exists_lexeme_of_unterminated {source : Bytes} {e : LexicalError} (he : e ∈ (scan source).errors)
    (hfault : e.fault.isUnterminated = true) :
    ∃ lexeme, SpanReads source e.span lexeme [] ∧ Unterminated e.fault lexeme := by
  obtain ⟨placed, hmem, herror⟩ := List.mem_filterMap.mp he
  obtain ⟨hreading, hspan⟩ := Placed.error?_eq_some.mp herror
  obtain ⟨rest, hdecode, hmunched⟩ := munched_of_mem_placedPieces hmem
  obtain ⟨rfl, hopen⟩ := hmunched.unterminated hreading hfault
  rw [hspan]
  exact ⟨placed.piece.lexeme, Placed.spanReads hdecode, hopen⟩

/-! ## The last turn -/

namespace Scanner

/-- A scanner that has come to its end has found what `scan` does. -/
theorem toScan_eq_of_reaches {report : Report} {source : Bytes} {s : Scanner}
    (h : StateTransition.Reaches turn (ofSource report source) s) (hend : s.turn = none) :
    s.toScan = scan source := by
  have hahead : (ofSource report source).cursor.ahead = lexemes (pieces (decode source)) := by
    rw [lexemes, lexemes_pieces]
    rfl
  obtain ⟨final, hrun, htakes⟩ := exists_run (cut_pieces (decode source)) hahead rfl
  -- a run has one end only
  have hmem : s ∈ (ofSource report source).run := StateTransition.mem_eval.mpr ⟨h, hend⟩
  rw [hrun] at hmem
  rw [Part.mem_some_iff.mp hmem]
  exact congrArg Prod.fst (finished_of_takes htakes).scan_eq

/-- **The turn that starts with an opener without an end** notes the fault from there to the end of the text,
    reports it, and is the last turn. -/
theorem noted_of_unterminated {report : Report} {source : Bytes} {s : Scanner} {fault : Fault}
    (hreaches : StateTransition.Reaches turn (ofSource report source) s)
    (hopen : Unterminated fault (decode (source.drop s.cursor.position))) :
    let e : LexicalError := ⟨fault, ⟨s.cursor.position, source.length - s.cursor.position⟩⟩
    ∃ s', s.turn = some s' ∧ s'.errors = s.errors ++ [e] ∧ s'.report = s.report.addError e ∧
      s'.turn = none := by
  intro e
  obtain ⟨ps, hps⟩ := exists_takes_of_reaches hreaches
  have htext : s.cursor.text = source := hps.reads.text
  obtain ⟨p, hlexeme, hmunched, hreading⟩ := hopen.exists_munched
  have hahead : s.cursor.ahead = p.lexeme ++ [] := by
    rw [List.append_nil, hlexeme, ← htext]
    rfl
  have htakes := scanToken_takes hmunched hahead
  have hwidth : p.width = source.length - s.cursor.position := by
    rw [Piece.width, Piece.bytes, hlexeme, spell_decode, List.length_drop]
  have herrors : errorsAt s.cursor.position [p] = [e] := by
    rw [errorsAt_cons, Placed.error?, hreading]
    show [LexicalError.mk fault ⟨s.cursor.position, p.width⟩] = [e]
    rw [hwidth]
  refine ⟨s.scanToken, turn_of_ahead hahead hps.breakdown, ?_, ?_, ?_⟩
  · rw [htakes.errors, herrors]
  · rw [htakes.report, herrors]
    rfl
  · apply turn_of_atEnd
    rw [Cursor.atEnd_iff]
    apply htakes.reads.ahead_eq
    rw [hahead, lexemes_cons, lexemes_nil, List.append_nil, List.append_nil]

end Scanner

/-! ## Scans -/

/-- **Missing ends of a text and its scan.** -/
structure UnterminatedOnce (source : Bytes) (s : Scan) : Prop where
  atMostOne : s.errors.countP (·.fault.isUnterminated) ≤ 1
  endsScan : ∀ e ∈ s.errors, e.fault.isUnterminated = true → EndsScan source s e
  lexeme : ∀ e ∈ s.errors, e.fault.isUnterminated = true →
    ∃ lexeme, SpanReads source e.span lexeme [] ∧ Unterminated e.fault lexeme
  /-- Whenever the main loop comes to an opener without an end, it has one more turn. In this turn the
      fault is noted and reported, and the errors are those of the scan. -/
  noted : ∀ {report : Report} {before : Scanner} {fault : Fault},
    StateTransition.Reaches Scanner.turn (Scanner.ofSource report source) before →
    Unterminated fault (decode (source.drop before.cursor.position)) →
      let e : LexicalError :=
        ⟨fault, ⟨before.cursor.position, source.length - before.cursor.position⟩⟩
      s.errors = before.errors ++ [e] ∧ ∃ after, before.turn = some after ∧
        after.errors = s.errors ∧ after.report = before.report.addError e ∧ after.turn = none

/-- **A string or a comment without its end is the last thing found.** -/
theorem scan_unterminated (source : Bytes) : UnterminatedOnce source (scan source) := by
  constructor
  · exact countP_isUnterminated_le_one source
  · exact fun e he hfault => endsScan_of_unterminated he hfault
  · exact fun e he hfault => exists_lexeme_of_unterminated he hfault
  · intro report before fault hreaches hopen
    obtain ⟨after, hturn, herrors, hreport, hend⟩ := Scanner.noted_of_unterminated hreaches hopen
    have hscan : after.errors = (scan source).errors :=
      congrArg Scan.errors (Scanner.toScan_eq_of_reaches (hreaches.tail hturn) hend)
    exact ⟨hscan.symm.trans herrors, after, hturn, hscan, hreport, hend⟩

/-- A slash directly behind the opener ends no comment, and neither does a star at the end. -/
example : scan (ascii "/*/ *") = ⟨[endToken 5], [⟨.unterminatedComment, ⟨0, 5⟩⟩]⟩ := by decide +kernel

end LoxLexer
