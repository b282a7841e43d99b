import LoxLexer.Proofs.Dispatch
import LoxLexer.Proofs.Placement

/-!
# `LoxLexer.Proofs.Outcome` — the scanner gets to the end and finds what `scan` says

Nothing in the scanner bounds its main loop, and two of its branches break down. Both matters are settled by
one description of a step: from where the scanner stands, it takes exactly the piece that munching finds
there (`scanToken_takes`). A piece is not empty and no piece is missing, so the loop ends at the end of the
text, and nothing breaks down on the way; and what was noted is what `scan` and `Report.scan` collect from
the pieces.

## Contents
- `Scanner.Takes` — reading a list of pieces. `scanToken_takes` is the step and `exists_reaches` the run, which
  `exists_run` follows to its end. `exists_cut_of_reaches` says that there are no other steps.
- `Scanner.Finished`, `Scanner.run_ofSource` — how every run on a text ends.
-/

namespace LoxLexer

/-- A scan is fine, and has nothing to say, exactly when it found no errors. -/
theorem Scan.ok_iff {s : Scan} : s.status = .ok ∧ s.message = [] ↔ s.errors = [] := by
  unfold message status
  cases s.errors <;> simp

theorem Scan.failed_of_ne {s : Scan} (h : s.errors ≠ []) :
    s.status = .failed ∧ s.message = ascii "Error scanning file." := by
  have hfailed : s.status = .failed := by
    rw [status, List.isEmpty_eq_false_iff.mpr h]
    rfl
  exact ⟨hfailed, by rw [message, hfailed]⟩

namespace Scanner

variable {s s' s'' : Scanner} {p : Piece} {follow : List Glyph}

/-! ## Pieces one after another -/

/-- **Reading the pieces `ps`** leads from `s` to `s'`, with their tokens and errors noted in between. -/
structure Takes (s : Scanner) (ps : List Piece) (s' : Scanner) : Prop where
  reads : s.cursor.Reads (lexemes ps) s'.cursor
  tokens : s'.tokens = s.tokens ++ tokensAt s.cursor.position ps
  errors : s'.errors = s.errors ++ errorsAt s.cursor.position ps
  report : s'.report = (errorsAt s.cursor.position ps).foldl Report.addError s.report
  breakdown : s'.breakdown = s.breakdown

namespace Takes

variable {ps qs : List Piece}

theorem refl (s : Scanner) : s.Takes [] s where
  reads := .refl s.cursor
  tokens := (List.append_nil _).symm
  errors := (List.append_nil _).symm
  report := rfl
  breakdown := rfl

theorem trans (h : s.Takes ps s') (h' : s'.Takes qs s'') : s.Takes (ps ++ qs) s'' := by
  have hposition : s'.cursor.position = s.cursor.position + (textOf ps).length := h.reads.position
  refine ⟨?_, ?_, ?_, ?_, h'.breakdown.trans h.breakdown⟩
  · rw [lexemes_append]
    exact h.reads.trans h'.reads
  · rw [h'.tokens, h.tokens, tokensAt_append, hposition, List.append_assoc]
  · rw [h'.errors, h.errors, errorsAt_append, hposition, List.append_assoc]
  · rw [h'.report, h.report, errorsAt_append, hposition, List.foldl_append]

theorem ahead_eq (h : s.Takes ps s') (hahead : s.cursor.ahead = lexemes ps ++ follow) :
    s'.cursor.ahead = follow := h.reads.ahead_eq hahead

end Takes

section Note

variable {placed : Placed}

/-- Noting a piece where it stands adds the token that it is, if it is one. -/
theorem tokens_note (hspan : s.span = placed.span) :
    (s.note placed.piece.reading).tokens = s.tokens ++ placed.token?.toList := by
  unfold Placed.token?
  rw [← hspan]
  cases placed.piece.reading with
  | token kind payload => rfl
  | _ => exact (List.append_nil _).symm

/-- Noting a piece where it stands adds the error that it is, if it is one. -/
theorem errors_note (hspan : s.span = placed.span) :
    (s.note placed.piece.reading).errors = s.errors ++ placed.error?.toList := by
  unfold Placed.error?
  rw [← hspan]
  cases placed.piece.reading with
  | faulty fault => rfl
  | _ => exact (List.append_nil _).symm

/-- Errors are reported when they are noted. -/
theorem report_note (hspan : s.span = placed.span) : (s.note placed.piece.reading).report =
    placed.error?.toList.foldl Report.addError s.report := by
  unfold Placed.error?
  rw [← hspan]
  cases placed.piece.reading <;> rfl

@[simp] theorem cursor_note (s : Scanner) (reading : Reading) : (s.note reading).cursor = s.cursor := by
  cases reading <;> rfl

@[simp] theorem breakdown_note (s : Scanner) (reading : Reading) :
    (s.note reading).breakdown = s.breakdown := by
  cases reading <;> rfl

end Note

/-- A piece that was read and noted was taken. -/
theorem takes_note {c : Cursor} (h : s.cursor.Reads p.lexeme c) :
    s.Takes [p] ((s.begin.moveTo c).note p.reading) := by
  have hspan : (s.begin.moveTo c).span = Placed.span ⟨s.cursor.position, p⟩ := by
    show Span.mk s.cursor.position (c.position - s.cursor.position) = _
    rw [h.position, Nat.add_sub_cancel_left]
    rfl
  have htokens : tokensAt s.cursor.position [p] = (Placed.token? ⟨s.cursor.position, p⟩).toList := by
    rw [tokensAt_cons]
    exact List.append_nil _
  have herrors : errorsAt s.cursor.position [p] = (Placed.error? ⟨s.cursor.position, p⟩).toList := by
    rw [errorsAt_cons]
    exact List.append_nil _
  refine ⟨?_, ?_, ?_, ?_, breakdown_note _ _⟩
  · rw [cursor_note, lexemes_cons, lexemes_nil, List.append_nil]
    exact h
  · rw [htokens]
    exact tokens_note hspan
  · rw [herrors]
    exact errors_note hspan
  · rw [herrors]
    exact report_note hspan

/-- **The step**: the scanner takes the piece that starts where it stands, and does not break down. -/
theorem scanToken_takes (hmunched : Munched p follow) (hahead : s.cursor.ahead = p.lexeme ++ follow) :
    s.Takes [p] s.scanToken := by
  obtain ⟨c, hnext, hfirst⟩ := Cursor.exists_next hahead
  have hbegun : Begun s.cursor (s.begin.moveTo c) p follow := ⟨rfl, hfirst, hfirst.ahead_eq hahead⟩
  obtain ⟨c', hreads, hdispatch⟩ := ends_dispatch hbegun hmunched
  have hstep : s.scanToken = (s.begin.moveTo c').note p.reading := by
    unfold scanToken
    rw [hnext]
    exact hdispatch
  rw [hstep]
  exact takes_note (hbegun.reads_lexeme hreads)

/-- Where something is left to read, there is a piece ahead. -/
theorem exists_munched_ahead (h : s.cursor.atEnd = false) :
    ∃ p follow, Munched p follow ∧ s.cursor.ahead = p.lexeme ++ follow := by
  cases hahead : s.cursor.ahead with
  | nil =>
    rw [Cursor.atEnd_iff.mpr hahead] at h
    cases h
  | cons g rest =>
    refine ⟨Piece.first g rest, _, munched_first g rest, ?_⟩
    rw [Piece.lexeme, Piece.first, List.cons_append, List.take_append_drop]

theorem exists_takes_scanToken (h : s.cursor.atEnd = false) : ∃ p, s.Takes [p] s.scanToken := by
  obtain ⟨p, follow, hmunched, hahead⟩ := exists_munched_ahead h
  exact ⟨p, scanToken_takes hmunched hahead⟩

/-! ## Runs -/

/-- A turn is one step, and nothing but a step. -/
theorem turn_eq_some : s.turn = some s' ↔
    s.cursor.atEnd = false ∧ s.breakdown = none ∧ s.scanToken = s' := by
  unfold turn
  cases s.cursor.atEnd <;> cases s.breakdown <;> simp

theorem turn_of_atEnd (h : s.cursor.atEnd = true) : s.turn = none := by
  rw [turn, h]
  rfl

/-- While something is ahead there is a next turn. -/
theorem turn_of_ahead {g : Glyph} {rest : List Glyph} (hahead : s.cursor.ahead = g :: rest)
    (hintact : s.breakdown = none) : s.turn = some s.scanToken := by
  have hmore : s.cursor.atEnd = false := by
    rw [Bool.eq_false_iff]
    intro hend
    rw [Cursor.atEnd_iff.mp hend] at hahead
    cases hahead
  exact turn_eq_some.mpr ⟨hmore, hintact, rfl⟩

/-- **The run**: the scanner takes the pieces ahead of it, one each turn, whatever follows them. -/
theorem exists_reaches {ps : List Piece} (hcut : Cut ps follow)
    (hahead : s.cursor.ahead = lexemes ps ++ follow) (hintact : s.breakdown = none) :
    ∃ s', StateTransition.Reaches turn s s' ∧ s.Takes ps s' := by
  -- each turn takes the first of the pieces ahead and leaves the cut of the others
  induction ps generalizing s with
  | nil => exact ⟨s, .refl, .refl s⟩
  | cons p ps ih =>
    obtain ⟨hp, hps⟩ := cut_cons.mp hcut
    have hfront : s.cursor.ahead = p.lexeme ++ (lexemes ps ++ follow) := by
      rw [hahead, lexemes_cons, List.append_assoc]
    have hstep := scanToken_takes hp hfront
    have hmore : s.turn = some s.scanToken := turn_of_ahead hfront hintact
    have hrest : s.scanToken.cursor.ahead = lexemes ps ++ follow := hstep.ahead_eq (by simpa using hfront)
    obtain ⟨s', hreaches, htakes⟩ := ih hps hrest (hstep.breakdown.trans hintact)
    exact ⟨s', .head hmore hreaches, hstep.trans htakes⟩

/-- When the scanner has taken all the pieces that are ahead, it has come to its end. -/
theorem exists_run {ps : List Piece} (hcut : Cut ps []) (hahead : s.cursor.ahead = lexemes ps)
    (hintact : s.breakdown = none) : ∃ final, s.run = Part.some final ∧ s.Takes ps final := by
  rw [← List.append_nil (lexemes ps)] at hahead
  obtain ⟨final, hreaches, htakes⟩ := exists_reaches hcut hahead hintact
  have hend : final.turn = none := turn_of_atEnd (Cursor.atEnd_iff.mpr (htakes.ahead_eq hahead))
  exact ⟨final, Part.eq_some_iff.mpr (StateTransition.mem_eval.mpr ⟨hreaches, hend⟩), htakes⟩

/-- **All that a scanner does on its way** is to take pieces, one each turn, and they are a cut in front of
    what is still ahead. -/
theorem exists_cut_of_reaches (h : StateTransition.Reaches turn s s') : ∃ ps,
    Cut ps s'.cursor.ahead ∧ s.Takes ps s' := by
  induction h with
  | refl => exact ⟨[], .nil, .refl s⟩
  | @tail t _ _ hturn ih =>
    obtain ⟨ps, hcut, htakes⟩ := ih
    obtain ⟨hmore, -, rfl⟩ := turn_eq_some.mp hturn
    obtain ⟨p, follow, hmunched, hahead⟩ := exists_munched_ahead hmore
    have hfront : t.cursor.ahead = lexemes [p] ++ follow := by simpa using hahead
    have hstep := scanToken_takes hmunched hahead
    refine ⟨ps ++ [p], ?_, htakes.trans hstep⟩
    rw [hstep.ahead_eq hfront, cut_append, ← hfront]
    exact ⟨hcut, .cons hmunched .nil⟩

theorem exists_takes_of_reaches (h : StateTransition.Reaches turn s s') : ∃ ps, s.Takes ps s' := by
  obtain ⟨ps, -, htakes⟩ := exists_cut_of_reaches h
  exact ⟨ps, htakes⟩

/-! ## Runs on a text -/

/-- How a run on a text ends. -/
structure Finished (report : Report) (source : Bytes) (final : Scanner) : Prop where
  /-- Nothing broke down: there was a character wherever a piece starts, and every step that hit the
      end could be taken back. -/
  intact : final.breakdown = none
  /-- All of the text was read. -/
  position : final.cursor.position = source.length
  /-- The end-of-input token comes last, and nowhere else. -/
  closed : ∃ tokens, final.toScan.tokens = tokens ++ [⟨.endOfInput, ⟨source.length, 0⟩, .empty⟩] ∧
    ∀ t ∈ tokens, t.kind ≠ .endOfInput
  /-- Everything is fine if there are no errors, and only then. -/
  ok_iff : (final.outcome = .ok .ok ∧ final.message = []) ↔ final.errors = []
  failed : final.errors ≠ [] →
    final.outcome = .ok .failed ∧ final.message = ascii "Error scanning file."
  /-- What was found and reported is what scanning the text into the report yields. -/
  scan_eq : (final.toScan, final.report) = report.scan source

theorem finished_of_takes {report : Report} {source : Bytes} {final : Scanner}
    (h : (ofSource report source).Takes (pieces (decode source)) final) :
    Finished report source final := by
  have hintact : final.breakdown = none := h.breakdown
  have hposition : final.cursor.position = source.length := by
    have hread := h.reads.position
    rw [← textOf, textOf_pieces] at hread
    exact hread.trans (Nat.zero_add _)
  have htokens : final.tokens = tokensAt 0 (pieces (decode source)) := h.tokens
  have herrors : final.errors = (scan source).errors := h.errors
  have hscan : final.toScan = scan source := by
    rw [toScan, htokens, herrors, hposition]
    rfl
  have houtcome : final.outcome = .ok (scan source).status := by
    rw [outcome, hintact, hscan]
  have hmessage : final.message = (scan source).message := by
    rw [message, hintact, hscan]
  refine ⟨hintact, hposition, ?_, ?_, ?_, ?_⟩
  · refine ⟨tokensAt 0 (pieces (decode source)), ?_, ?_⟩
    · rw [toScan, htokens, hposition]
      rfl
    · rw [← properTokens_scan]
      intro t ht
      exact of_decide_eq_true (List.mem_filter.mp ht).2
  · rw [houtcome, hmessage, herrors, Except.ok.injEq]
    exact Scan.ok_iff
  · intro hne
    rw [herrors] at hne
    rw [houtcome, hmessage, Except.ok.injEq]
    exact Scan.failed_of_ne hne
  · rw [hscan]
    exact congrArg (Prod.mk _) h.report

/-- **Every scan comes to its end.** On any text and with any report, each turn of the main loop gets the
    scanner further and never beyond the text, so the run has a result; the scanner never breaks down,
    and the status tells whether there are errors. -/
theorem run_ofSource (report : Report) (source : Bytes) :
    (∀ s s', StateTransition.Reaches turn (ofSource report source) s → s.turn = some s' →
      s'.breakdown = none ∧ s.cursor.position < s'.cursor.position ∧
        s'.cursor.position ≤ source.length) ∧
    ∃ final, (ofSource report source).run = Part.some final ∧ Finished report source final := by
  constructor
  · intro s s' hreaches hturn
    obtain ⟨ps, hps⟩ := exists_takes_of_reaches hreaches
    obtain ⟨hmore, -, rfl⟩ := turn_eq_some.mp hturn
    obtain ⟨p, hp⟩ := exists_takes_scanToken hmore
    have hboth := hps.trans hp
    refine ⟨hboth.breakdown, ?_, hboth.reads.position_le (Nat.zero_le _)⟩
    have hposition : s.scanToken.cursor.position = s.cursor.position + (textOf [p]).length :=
      hp.reads.position
    -- a piece is never empty
    have hwidth := p.width_pos
    rw [length_textOf_cons] at hposition
    omega
  · have hahead : (ofSource report source).cursor.ahead = lexemes (pieces (decode source)) := by
      rw [lexemes, lexemes_pieces]
      rfl
    obtain ⟨final, hrun, htakes⟩ := exists_run (cut_pieces (decode source)) hahead rfl
    exact ⟨final, hrun, finished_of_takes htakes⟩

end Scanner

end LoxLexer
