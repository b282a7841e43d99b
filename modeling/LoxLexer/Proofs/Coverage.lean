import LoxLexer.Proofs.Placement
import LoxLexer.Proofs.Trivia

/-!
# `LoxLexer.Proofs.Coverage` — no byte is lost and none is counted twice

The spans of the tokens and of the errors of a text, put in the order of their offsets, follow one another
without overlapping, and what lies before, between and behind them is whitespace and comments. A text
without errors is therefore its tokens and its trivia, and nothing else: the lexemes of the tokens, one
after another, are the text with its trivia left out.

## Contents
- `Span.slice`, `gaps`, `Between` — the bytes of a span, the stretches that spans leave over, and the
  characters of such a stretch as they are decoded in the whole text.
- `Coverage` — what is claimed of a text and its scan; `scan_coverage` proves it of every text.
- `spansAt` — the spans of all pieces that are not skipped. `spans_scan` says that these are the spans of a
  scan in order, `stop_of_mem_spans` that their ends are computed without overflow, and `gap_trivia` goes
  through the pieces, collecting what is skipped.
-/

namespace LoxLexer

/-! ## Spans and the gaps they leave -/

/-- The bytes of the text inside the span. -/
def Span.slice (s : Span) (text : Bytes) : Bytes := (text.drop s.offset).take s.length

/-- The stretches, each from an offset to an offset, that ordered spans leave over between `start` and
    `stop`: one before each span and one behind the last. -/
def gaps (stop : Nat) : Nat → List Span → List (Nat × Nat)
  | start, [] => [(start, stop)]
  | start, s :: rest => (start, s.offset) :: gaps stop (s.offset + s.length) rest

/-- `glyphs` are the characters between two offsets, in the text as it is decoded from its start. -/
def Between (text : Bytes) (start stop : Nat) (glyphs : List Glyph) : Prop :=
  ∃ before after, decode text = before ++ glyphs ++ after ∧ (spell before).length = start ∧
    (spell (before ++ glyphs)).length = stop

/-- **A scan covers its text.** `spans` has the spans of all tokens but the last and of all errors, by
    offset. -/
structure Coverage (source : Bytes) (s : Scan) : Prop where
  nonempty : ∀ span ∈ s.spans, 0 < span.length
  inside : ∀ span ∈ s.spans, span.offset + span.length ≤ source.length
  disjoint : s.spans.Pairwise fun a b => a.offset + a.length ≤ b.offset
  tokens_ordered : s.properTokens.Pairwise fun a b => a.span.offset < b.span.offset
  errors_ordered : s.errors.Pairwise fun a b => a.span.offset < b.span.offset
  /-- Only the last gap may end in a line comment without its newline. -/
  gaps_trivia : ∀ gap ∈ gaps source.length 0 s.spans, ∃ glyphs, Between source gap.1 gap.2 glyphs ∧
    Trivia (gap.2 = source.length) glyphs
  stripped : s.status = .ok →
    s.properTokens.flatMap (·.span.slice source) = spell (strip .code (decode source))

/-! ## The spans of a scan in order -/

/-- The spans of the pieces that are not skipped, put one after another from an offset on. -/
def spansAt (offset : Nat) (ps : List Piece) : List Span :=
  ((place offset ps).filter (·.piece.reading ≠ .skipped)).map Placed.span

theorem merge_cons_of_le {x : Span} {xs ys : List Span} (h : ∀ y ∈ ys, x.offset ≤ y.offset) :
    (x :: xs).merge ys (fun a b => a.offset ≤ b.offset) =
      x :: xs.merge ys (fun a b => a.offset ≤ b.offset) := by
  cases ys with
  | nil => simp
  | cons y ys => exact List.cons_merge_cons_pos _ _ _ (by simpa using h y (List.mem_cons_self ..))

theorem merge_cons_of_lt {y : Span} {xs ys : List Span} (h : ∀ x ∈ xs, y.offset < x.offset) :
    xs.merge (y :: ys) (fun a b => a.offset ≤ b.offset) =
      y :: xs.merge ys (fun a b => a.offset ≤ b.offset) := by
  cases xs with
  | nil => simp
  | cons x xs => exact List.cons_merge_cons_neg _ _ _ (by simpa using h x (List.mem_cons_self ..))

/-- The spans of tokens and errors interleave to the spans of the pieces that they come from. -/
theorem merge_spans (offset : Nat) (ps : List Piece) :
    ((tokensAt offset ps).map Token.span).merge ((errorsAt offset ps).map LexicalError.span)
      (fun a b => a.offset ≤ b.offset) = spansAt offset ps := by
  induction ps generalizing offset with
  | nil => simp [tokensAt, errorsAt, spansAt, place]
  | cons p ps ih =>
    have hwidth := p.width_pos
    have htokens : ∀ x ∈ (tokensAt (offset + p.width) ps).map Token.span, offset < x.offset := by
      intro x hx
      obtain ⟨t, ht, rfl⟩ := List.mem_map.mp hx
      have hle := le_offset_of_mem_tokensAt ht
      omega
    have herrors : ∀ y ∈ (errorsAt (offset + p.width) ps).map LexicalError.span,
        offset ≤ y.offset := by
      intro y hy
      obtain ⟨e, he, rfl⟩ := List.mem_map.mp hy
      have hle := le_offset_of_mem_errorsAt he
      omega
    rw [tokensAt_cons, errorsAt_cons, spansAt, place, List.filter_cons]
    -- the first piece comes first whichever list it is in: later ones start behind it
    cases hreading : p.reading with
    | skipped =>
      simp only [Placed.token?, Placed.error?, hreading, Option.toList_none, List.nil_append,
        ne_eq, not_true_eq_false, decide_false, Bool.false_eq_true, if_false]
      exact ih (offset + p.width)
    | token kind payload =>
      simp only [Placed.token?, Placed.error?, hreading, Option.toList_none, Option.toList_some,
        List.nil_append, List.singleton_append, List.map_cons]
      rw [merge_cons_of_le herrors, ih]
      rfl
    | faulty fault =>
      simp only [Placed.token?, Placed.error?, hreading, Option.toList_none, Option.toList_some,
        List.nil_append, List.singleton_append, List.map_cons]
      rw [merge_cons_of_lt htokens, ih]
      rfl

theorem spans_scan (source : Bytes) : (scan source).spans = spansAt 0 (pieces (decode source)) := by
  rw [Scan.spans, properTokens_scan, errors_scan, merge_spans]

theorem pairwise_spansAt (offset : Nat) (ps : List Piece) :
    (spansAt offset ps).Pairwise fun a b => a.offset + a.length ≤ b.offset := by
  unfold spansAt
  rw [List.pairwise_map]
  exact (pairwise_place offset ps).filter _

/-- The end of a span is computed in a machine word. **It never wraps around** in a text with a length that
    fits one, so it is where the span ends, inside the text. -/
theorem stop_of_mem_spans {source : Bytes} (hlength : source.length < 1 <<< 64) {span : Span}
    (h : span ∈ (scan source).spans) :
    span.stop = span.offset + span.length ∧ span.stop ≤ source.length := by
  obtain ⟨placed, hmem, rfl⟩ := exists_placed_of_mem_spans h
  have hinside : placed.span.offset + placed.span.length ≤ source.length := placed.stop_le hmem
  have hstop : placed.span.stop = placed.span.offset + placed.span.length :=
    Nat.mod_eq_of_lt (hinside.trans_lt hlength)
  exact ⟨hstop, hstop.trans_le hinside⟩

/-! ## What lies in the gaps -/

theorem spansAt_cons_of_skipped {offset : Nat} {p : Piece} (ps : List Piece)
    (h : p.reading = .skipped) : spansAt offset (p :: ps) = spansAt (offset + p.width) ps := by
  rw [spansAt, place, List.filter_cons_of_neg (by simp [h])]
  rfl

theorem spansAt_cons_of_not_skipped {offset : Nat} {p : Piece} (ps : List Piece)
    (h : p.reading ≠ .skipped) :
    spansAt offset (p :: ps) = ⟨offset, p.width⟩ :: spansAt (offset + p.width) ps := by
  rw [spansAt, place, List.filter_cons_of_pos (by simp [h])]
  rfl

/-- A skipped piece that is closed is trivia anywhere. -/
theorem Munched.trivia_of_closed {p : Piece} {follow : List Glyph} (h : Munched p follow)
    (hskipped : p.reading = .skipped) (hclosed : ¬ p.isUnclosed = true) : Trivia False p.lexeme := by
  have htrivia := h.trivia hskipped
  rw [eq_false hclosed] at htrivia
  exact htrivia

/-- **Every gap holds trivia.** The pieces are gone through with the gap that is being collected: `before`
    is the text in front of it, and `trivia` the characters skipped since. -/
theorem gap_trivia {source : Bytes} {ps : List Piece} (hcut : Cut ps []) {before trivia : List Glyph}
    (htext : decode source = before ++ trivia ++ lexemes ps) (htrivia : Trivia False trivia) :
    ∀ gap ∈ gaps source.length (spell before).length (spansAt (spell (before ++ trivia)).length ps),
      ∃ glyphs, Between source gap.1 gap.2 glyphs ∧ Trivia (gap.2 = source.length) glyphs := by
  induction ps generalizing before trivia with
  | nil =>
    intro gap hgap
    obtain rfl := List.mem_singleton.mp hgap
    have hlength : (spell (before ++ trivia)).length = source.length := by
      rw [← spell_decode source, htext, lexemes_nil, List.append_nil]
    refine ⟨trivia, ⟨before, [], htext, rfl, hlength⟩, ?_⟩
    rw [← List.append_nil trivia]
    exact htrivia.append .nil
  | cons p ps ih =>
    obtain ⟨hp, hps⟩ := cut_cons.mp hcut
    have hwidth : ∀ glyphs : List Glyph,
        (spell (glyphs ++ p.lexeme)).length = (spell glyphs).length + p.width := by
      intro glyphs
      rw [spell_append, List.length_append]
      rfl
    by_cases hskipped : p.reading = .skipped
    · rw [spansAt_cons_of_skipped ps hskipped, ← hwidth, List.append_assoc]
      by_cases hclosed : p.isUnclosed = true
      · -- an unclosed comment: the text ends with it, and so does the last gap
        have hnil : ps = [] :=
          lexemes_eq_nil_iff.mp (List.append_eq_nil_iff.mp (hp.follow_eq_nil hclosed)).1
        subst hnil
        intro gap hgap
        obtain rfl := List.mem_singleton.mp hgap
        have hall : decode source = before ++ (trivia ++ p.lexeme) ++ [] := by
          rw [htext, lexemes_cons, lexemes_nil]
          simp only [List.append_nil, List.append_assoc]
        have hlength : (spell (before ++ (trivia ++ p.lexeme))).length = source.length := by
          rw [← spell_decode source, hall, List.append_nil]
        have hlast := hp.trivia hskipped
        rw [eq_true hclosed, ← eq_self source.length] at hlast
        exact ⟨trivia ++ p.lexeme, ⟨before, [], hall, rfl, hlength⟩, htrivia.append hlast⟩
      · -- the gap goes on behind a closed piece
        refine ih hps ?_ (htrivia.append (hp.trivia_of_closed hskipped hclosed))
        rw [htext, lexemes_cons]
        simp only [List.append_assoc]
    · rw [spansAt_cons_of_not_skipped ps hskipped]
      intro gap hgap
      rcases List.mem_cons.mp hgap with rfl | hgap
      · -- the gap that was being collected ends in front of the span
        refine ⟨trivia, ⟨before, lexemes (p :: ps), htext, rfl, rfl⟩, ?_⟩
        rw [← List.append_nil trivia]
        exact htrivia.append .nil
      · -- a new gap starts behind the span, with nothing skipped so far
        have htext' : decode source = before ++ trivia ++ p.lexeme ++ [] ++ lexemes ps := by
          rw [htext, lexemes_cons]
          simp only [List.append_assoc, List.append_nil]
        apply ih hps htext' .nil gap
        rw [List.append_nil, hwidth]
        exact hgap

/-! ## What the tokens are made of -/

/-- The slices of the tokens are the bytes of their pieces. -/
theorem flatMap_slice (before : Bytes) (ps : List Piece) :
    (tokensAt before.length ps).flatMap (·.span.slice (before ++ textOf ps)) =
      textOf (ps.filter Piece.isToken) := by
  induction ps generalizing before with
  | nil => rfl
  | cons p ps ih =>
    have hrest := ih (before ++ p.bytes)
    rw [List.length_append, List.append_assoc, ← textOf_cons] at hrest
    rw [tokensAt_cons, List.flatMap_append]
    by_cases htoken : p.isToken = true
    · obtain ⟨t, ht, hspan⟩ := exists_token_of_isToken before.length htoken
      have hslice : t.span.slice (before ++ textOf (p :: ps)) = p.bytes := by
        rw [hspan, Span.slice, List.drop_left, textOf_cons]
        exact List.take_left
      rw [ht, List.filter_cons_of_pos htoken, Option.toList_some, List.flatMap_singleton, hslice,
        textOf_cons p (ps.filter Piece.isToken)]
      exact congrArg (p.bytes ++ ·) hrest
    · rw [token?_of_not_isToken htoken, List.filter_cons_of_neg htoken]
      exact hrest

/-- In a scan without errors, every piece is skipped or a token. -/
theorem skipped_or_isToken {offset : Nat} {ps : List Piece} (h : errorsAt offset ps = []) {p : Piece}
    (hp : p ∈ ps) : p.reading = .skipped ∨ p.isToken = true := by
  cases hreading : p.reading with
  | skipped => exact Or.inl rfl
  | token kind payload => exact Or.inr (Piece.isToken_iff.mpr ⟨kind, payload, hreading⟩)
  | faulty fault =>
    -- a faulty piece would have been reported
    obtain ⟨e, he, -⟩ := exists_error_iff.mpr ⟨p, hp, hreading⟩
    rw [h] at he
    cases he

/-- The slice of a piece's span is the bytes of the piece. -/
theorem slice_of_mem_placedPieces {source : Bytes} {placed : Placed} (h : placed ∈ placedPieces source) :
    placed.span.slice source = placed.piece.bytes := by
  obtain ⟨rest, hrest⟩ := drop_of_mem_placedPieces h
  show (source.drop placed.offset).take placed.piece.width = placed.piece.bytes
  rw [hrest]
  exact List.take_left

/-- The slice of a token is as long as its span: it lies inside the text. -/
theorem length_slice_of_mem_properTokens {source : Bytes} {t : Token}
    (h : t ∈ (scan source).properTokens) : (t.span.slice source).length = t.span.length := by
  obtain ⟨placed, hmem, hspan⟩ :=
    exists_placed_of_mem_spans (Scan.mem_spans.mpr (Or.inl ⟨t, h, rfl⟩))
  rw [← hspan, slice_of_mem_placedPieces hmem]
  rfl

/-- **No byte is lost, and none is counted twice.** -/
theorem scan_coverage (source : Bytes) : Coverage source (scan source) := by
  have hcut := cut_pieces (decode source)
  have hlexemes : lexemes (pieces (decode source)) = decode source := lexemes_pieces _
  have hplaced : ∀ span ∈ (scan source).spans, ∃ placed ∈ placedPieces source,
      placed.span = span := fun span => exists_placed_of_mem_spans
  constructor
  · intro span hspan
    obtain ⟨placed, -, rfl⟩ := hplaced span hspan
    exact placed.piece.width_pos
  · intro span hspan
    obtain ⟨placed, hmem, rfl⟩ := hplaced span hspan
    exact placed.stop_le hmem
  · rw [spans_scan]
    exact pairwise_spansAt 0 _
  · rw [properTokens_scan]
    exact pairwise_filterMap_place Placed.span_eq_of_token? 0 _
  · rw [errors_scan]
    exact pairwise_filterMap_place Placed.span_eq_of_error? 0 _
  · have htext : decode source = [] ++ [] ++ lexemes (pieces (decode source)) := hlexemes.symm
    rw [spans_scan]
    exact gap_trivia hcut htext .nil
  · intro hok
    have herrors : errorsAt 0 (pieces (decode source)) = [] := by
      rw [← errors_scan]
      unfold Scan.status at hok
      split at hok
      · rename_i hempty
        exact List.isEmpty_iff.mp hempty
      · cases hok
    have hslices := flatMap_slice [] (pieces (decode source))
    rw [List.nil_append, textOf_pieces] at hslices
    -- both sides are the text of the pieces that are tokens
    have hstrip := strip_lexemes hcut fun p => skipped_or_isToken herrors
    rw [List.append_nil, hlexemes] at hstrip
    rw [properTokens_scan, hstrip, strip, List.append_nil]
    exact hslices

end LoxLexer
