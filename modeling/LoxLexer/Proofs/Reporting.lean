import LoxLexer.Proofs.Coverage
import LoxLexer.Proofs.Locating
import LoxLexer.Proofs.Outcome

/-!
# `LoxLexer.Proofs.Reporting` — what is written is what was found

A report gets the block of an error at the moment the scanner notes it, so that at any time it says what it
said before the scan and then the errors so far, and nothing else. The text it quotes has no influence on
what is found. Where it quotes the text that is scanned, each block points at its error: under the line in
which the error starts there are carets exactly below the bytes of the error that are on this line.

## Contents
- `errorText`, `Report.Extends` — what a list of errors writes, and a report that it was added to.
- `Around`, `Underlines` — a stretch of one line, and a block with carets below just that stretch.
- `underlines_errorBlock` — every block about an offset inside the text underlines its span up to the end of
  the line. For errors there is always something to underline (`firstLine_slice_ne_nil`).
- `Scanner.run_report` — the report of a run, on the way and at its end.
-/

namespace LoxLexer

/-! ## What a list of errors writes -/

/-- The blocks of the errors about a text, in order, each followed by an empty line. -/
def errorText (source : Bytes) (errors : List LexicalError) : Bytes :=
  errors.flatMap fun e => endLine (errorBlock source e.message e.span)

/-- **`after` is `before` with the errors added**, and nothing else: it says what `before` said and then
    the errors, and it quotes the same text. -/
structure Report.Extends (before : Report) (errors : List LexicalError) (after : Report) : Prop where
  source : after.source = before.source
  text : after.text = before.text ++ errorText before.source errors

theorem Report.extends_foldl (report : Report) (errors : List LexicalError) :
    report.Extends errors (errors.foldl addError report) := by
  induction errors generalizing report with
  | nil => exact ⟨rfl, (List.append_nil _).symm⟩
  | cons e errors ih =>
    obtain ⟨hsource, htext⟩ := ih (report.addError e)
    refine ⟨hsource, htext.trans ?_⟩
    rw [addError, text_add, List.append_assoc]
    rfl

/-- A report on a text, with the text scanned into it, says its errors. -/
theorem Report.text_scan (source : Bytes) :
    ((ofSource source).scan source).2.text = errorText source (LoxLexer.scan source).errors :=
  ((ofSource source).extends_foldl (LoxLexer.scan source).errors).text

/-! ## What a block underlines -/

/-- The bytes `marked` stand on one line of the text, from the given offset on: whole lines are above this
    line, and `front` is on it before them. -/
structure Around (source : Bytes) (offset : Nat) (above front marked behind : Bytes) : Prop where
  text : source = above ++ front ++ marked ++ behind
  offset : (above ++ front).length = offset
  above : ClosedLines above
  line : newline ∉ front ++ marked

/-- **The block underlines `marked`**, the first bytes of the span. Its second line has the bar of the
    margin, its third line quotes the line of the text that `marked` is on, and its fourth line has spaces
    below everything in front of `marked` and a caret below each byte of it. Only a span that goes on
    behind `marked` gets a closing line. -/
def Underlines (source message : Bytes) (span : Span) (marked : Bytes) : Prop :=
  ∃ above front behind margin width, Around source span.offset above front marked behind ∧
    margin.length = width + 2 ∧
    errorBlock source message span =
      endLine message ++
        endLine (spaces width ++ ascii "|") ++
        endLine (margin ++ front ++ marked ++ firstLine behind) ++
        endLine (spaces width ++ ascii "| " ++ spaces front.length ++
          List.replicate marked.length '^'.toUInt8) ++
        if marked.length < span.length then
          endLine (spaces width ++ ascii "| --> Error continues in next line.")
        else []

/-- An offset inside the text has a line around it, and what a span marks of that line are its bytes up to
    the first newline. -/
theorem exists_around {source : Bytes} {span : Span} (h : span.offset ≤ source.length) :
    ∃ above front behind,
      Around source span.offset above front (firstLine (span.slice source)) behind := by
  obtain ⟨above, front, hsource, habove, hfront, hlength, -⟩ := exists_location source span.offset
  have hmarked : firstLine (span.slice source) =
      (firstLine (source.drop span.offset)).take span.length := List.take_takeWhile.symm
  -- the marked bytes are the beginning of the text from the offset on
  obtain ⟨behind, hbehind⟩ : firstLine (span.slice source) <+: source.drop span.offset := by
    rw [hmarked]
    exact (List.take_prefix _ _).trans (List.takeWhile_prefix _)
  refine ⟨above, front, behind, ?_, ?_, habove, ?_⟩
  · rw [List.append_assoc, hbehind, ← hsource]
  · rw [hlength, Nat.min_eq_left h]
  · rw [List.mem_append, not_or]
    exact ⟨hfront, newline_not_mem_firstLine _⟩

namespace Around

variable {source above front marked behind : Bytes} {offset : Nat}

theorem drop_eq (h : Around source offset above front marked behind) :
    source.drop offset = marked ++ behind := by
  rw [h.text, ← h.offset, List.append_assoc, List.drop_left]

theorem newline_not_mem (h : Around source offset above front marked behind) :
    newline ∉ front ∧ newline ∉ marked := by
  simpa only [List.mem_append, not_or] using h.line

theorem location_eq (h : Around source offset above front marked behind) :
    Location.ofOffset source offset =
      { line := 1 + above.count newline
        column := front.length
        lineStart := above.length
        lineText := front ++ marked ++ firstLine behind } := by
  obtain ⟨hfront, hmarked⟩ := h.newline_not_mem
  have hlocation := location_append h.above hfront (marked ++ behind)
  rw [← List.append_assoc (above ++ front), ← h.text, h.offset,
    firstLine_append_of_not_mem hmarked] at hlocation
  rw [hlocation, List.append_assoc front]

end Around

theorem length_rightAlign {width : Nat} {text : Bytes} (h : text.length ≤ width) :
    (rightAlign width text).length = width := by
  rw [rightAlign, List.length_append, length_spaces, Nat.sub_add_cancel h]

/-- **The block about a span**, by the text around the bytes that it marks. -/
theorem Around.errorBlock_eq {source above front marked behind : Bytes} {span : Span}
    (h : Around source span.offset above front marked behind)
    (hmarked : marked = firstLine (span.slice source)) (message : Bytes) :
    let number := 1 + above.count newline
    let gutter := spaces (Decimal.digitCount number + 2)
    errorBlock source message span =
      endLine message ++
        endLine (gutter ++ ascii "|") ++
        endLine (rightAlign (Decimal.digitCount number + 1) (Decimal.numeral number) ++ ascii " | " ++
          (front ++ marked ++ firstLine behind)) ++
        endLine (gutter ++ ascii "| " ++ spaces front.length ++
          List.replicate marked.length '^'.toUInt8) ++
        if marked.length < span.length then
          endLine (gutter ++ ascii "| --> Error continues in next line.")
        else [] := by
  have hrest : firstLine (source.drop span.offset) = marked ++ firstLine behind := by
    rw [h.drop_eq, firstLine_append_of_not_mem h.newline_not_mem.2]
  -- there are as many carets as the span and the rest of the line have bytes in common
  have hcarets : marked.length = min span.length (firstLine (source.drop span.offset)).length := by
    rw [hmarked, Span.slice, firstLine, firstLine, ← List.take_takeWhile, List.length_take]
  rw [hrest, List.length_append] at hcarets
  have honLine : (front ++ marked ++ firstLine behind).length - front.length =
      marked.length + (firstLine behind).length := by
    rw [List.append_assoc, List.length_append, Nat.add_sub_cancel_left, List.length_append]
  have hcloses : marked.length + (firstLine behind).length < span.length ↔
      marked.length < span.length := by
    omega
  simp only [errorBlock, h.location_eq, honLine, ← hcarets, hcloses]
  rfl

/-- **Blocks underline.** The carets of a block are below the bytes of its span, up to the first newline
    among them. -/
theorem underlines_errorBlock {source : Bytes} {span : Span} (h : span.offset ≤ source.length)
    (message : Bytes) : Underlines source message span (firstLine (span.slice source)) := by
  obtain ⟨above, front, behind, haround⟩ := exists_around h
  have hblock := haround.errorBlock_eq rfl message
  let number := 1 + above.count newline
  let margin := rightAlign (Decimal.digitCount number + 1) (Decimal.numeral number) ++ ascii " | "
  have hmargin : margin.length = Decimal.digitCount number + 2 + 2 := by
    rw [List.length_append, length_rightAlign (by rw [Decimal.length_numeral]; omega)]
    rfl
  have hquoted : margin ++ front ++ firstLine (span.slice source) ++ firstLine behind =
      margin ++ (front ++ firstLine (span.slice source) ++ firstLine behind) := by
    simp only [List.append_assoc]
  refine ⟨above, front, behind, margin, _, haround, hmargin, ?_⟩
  rw [hquoted]
  exact hblock

/-! ## Errors -/

/-- **Every error has something to underline**: it starts inside the text, and not with a newline. -/
theorem firstLine_slice_ne_nil {source : Bytes} {e : LexicalError} (h : e ∈ (scan source).errors) :
    e.span.offset ≤ source.length ∧ firstLine (e.span.slice source) ≠ [] := by
  obtain ⟨placed, hmem, herror⟩ := List.mem_filterMap.mp h
  obtain ⟨hreading, hspan⟩ := Placed.error?_eq_some.mp herror
  have hlead := lead_ne_newline hmem (by rw [hreading]; exact Reading.noConfusion)
  have hbytes : placed.piece.bytes =
      placed.piece.head.lead :: (placed.piece.head.tail ++ spell placed.piece.tail) := rfl
  rw [hspan]
  constructor
  · -- from its offset on, the text has the bytes of the piece
    obtain ⟨rest, hrest⟩ := drop_of_mem_placedPieces hmem
    show placed.offset ≤ source.length
    by_contra hbeyond
    rw [List.drop_eq_nil_of_le (by omega), hbytes] at hrest
    cases hrest
  · rw [slice_of_mem_placedPieces hmem, hbytes, firstLine, List.takeWhile_cons_of_pos (by simpa using hlead)]
    exact List.cons_ne_nil _ _

namespace Scanner

/-- On its way, the scanner has reported the errors that it has noted, and nothing else. -/
theorem extends_of_reaches {report : Report} {source : Bytes} {s : Scanner}
    (h : StateTransition.Reaches turn (ofSource report source) s) :
    report.Extends s.errors s.report := by
  obtain ⟨ps, htakes⟩ := exists_takes_of_reaches h
  have hreport : s.report = s.errors.foldl Report.addError report := by
    rw [htakes.report, htakes.errors]
    rfl
  rw [hreport]
  exact report.extends_foldl s.errors

/-- **The report and the errors stay in step.** Whatever a report quotes and says already, at any time of a
    run it says that, and behind it the errors found so far. The run itself is the same for all reports:
    it finds what `scan` does. Where the scanned text is quoted, each block underlines the bytes of its
    error up to their first newline, and there is at least one of them. -/
theorem run_report (source : Bytes) :
    (∀ report s, StateTransition.Reaches turn (ofSource report source) s →
      report.Extends s.errors s.report) ∧
    (∀ report, ∃ final, (ofSource report source).run = Part.some final ∧
      final.toScan = scan source ∧ final.outcome = .ok (scan source).status ∧
      final.message = (scan source).message ∧
      report.Extends (scan source).errors final.report) ∧
    ∀ e ∈ (scan source).errors, firstLine (e.span.slice source) ≠ [] ∧
      Underlines source e.message e.span (firstLine (e.span.slice source)) := by
  refine ⟨?_, ?_, ?_⟩
  · intro report s hreaches
    exact extends_of_reaches hreaches
  · intro report
    have hahead : (ofSource report source).cursor.ahead = lexemes (pieces (decode source)) := by
      rw [lexemes, lexemes_pieces]
      rfl
    obtain ⟨final, hrun, htakes⟩ := exists_run (cut_pieces (decode source)) hahead rfl
    have hfinished := finished_of_takes htakes
    have hscan : final.toScan = scan source := congrArg Prod.fst hfinished.scan_eq
    have hreport : final.report = (report.scan source).2 := congrArg Prod.snd hfinished.scan_eq
    refine ⟨final, hrun, hscan, ?_, ?_, ?_⟩
    · rw [outcome, hfinished.intact, hscan]
    · rw [message, hfinished.intact, hscan]
    · rw [hreport]
      exact report.extends_foldl _
  · intro e he
    obtain ⟨hinside, hmarked⟩ := firstLine_slice_ne_nil he
    exact ⟨hmarked, underlines_errorBlock hinside e.message⟩

end Scanner

end LoxLexer
