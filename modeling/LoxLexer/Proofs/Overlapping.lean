import LoxLexer.Proofs.LongestMatch
import LoxLexer.Proofs.Outcome

/-!
# `LoxLexer.Proofs.Overlapping` — what a scan has to say about one piece of the text

To say of a lexeme that it is one token, or one error, and nothing else, is to look at all tokens and errors
that share a byte with it. For a piece of the text these are the one token or the one error that the piece is,
since pieces never share a byte.

## Contents
- `Span.overlaps`, `Scan.tokensOver`, `Scan.errorsOver` — the tokens and errors that share a byte with a span.
- `Scan.Accepts`, `Scan.Rejects` — a span with one token and no error, and one with one error and no token.
- `StartsPiece` — where the pieces of a text start: wherever the main loop takes a turn (`startsPiece_iff`).
  `mem_placedPieces_of_munched` finds the piece there from its characters, and `munched_of_mem_tokens` goes
  back from a token to its piece.
- `filter_overlaps_place` — what is picked out of placed pieces over one of them, hence
  `accepts_of_reading` and `rejects_of_reading`.
-/

namespace LoxLexer

/-! ## Spans that share a byte -/

namespace Span

variable {a b : Span}

/-- The two spans share a byte. -/
def overlaps (a b : Span) : Bool :=
  decide (a.offset < b.offset + b.length) && decide (b.offset < a.offset + a.length)

theorem overlaps_self (h : 0 < a.length) : a.overlaps a = true := by
  simp [overlaps, h]

/-- A span that ends where the other starts, or before, is apart from it. -/
theorem overlaps_of_le (h : a.offset + a.length ≤ b.offset) :
    a.overlaps b = false ∧ b.overlaps a = false := by
  simp only [overlaps, Bool.and_eq_false_iff, decide_eq_false_iff_not]
  omega

end Span

namespace Scan

/-- The tokens that share a byte with the span. -/
def tokensOver (s : Scan) (span : Span) : List Token := s.tokens.filter fun t => t.span.overlaps span

/-- The errors that share a byte with the span. -/
def errorsOver (s : Scan) (span : Span) : List LexicalError :=
  s.errors.filter fun e => e.span.overlaps span

/-- One token, over exactly the span, and no error. -/
structure Accepts (s : Scan) (span : Span) (kind : Kind) (payload : Payload) : Prop where
  token : s.tokensOver span = [⟨kind, span, payload⟩]
  error : s.errorsOver span = []

/-- One error, over exactly the span, and no token. -/
structure Rejects (s : Scan) (span : Span) (fault : Fault) : Prop where
  token : s.tokensOver span = []
  error : s.errorsOver span = [⟨fault, span⟩]

end Scan

/-! ## Pieces by where they start -/

/-- A piece of the text starts at the offset. -/
def StartsPiece (source : Bytes) (offset : Nat) : Prop :=
  ∃ placed ∈ placedPieces source, placed.offset = offset

instance (source : Bytes) (offset : Nat) : Decidable (StartsPiece source offset) :=
  inferInstanceAs (Decidable (∃ placed ∈ placedPieces source, placed.offset = offset))

/-- **A piece starts exactly where the main loop takes a turn**, whatever is reported meanwhile. -/
theorem startsPiece_iff (report : Report) {source : Bytes} {offset : Nat} : StartsPiece source offset ↔
    ∃ s s', StateTransition.Reaches Scanner.turn (Scanner.ofSource report source) s ∧
      s.turn = some s' ∧ s.cursor.position = offset := by
  have hahead : (Scanner.ofSource report source).cursor.ahead = lexemes (pieces (decode source)) := by
    rw [lexemes, lexemes_pieces]
    rfl
  constructor
  · rintro ⟨placed, hmem, rfl⟩
    obtain ⟨before, after, hpieces, hoffset⟩ := mem_place.mp hmem
    -- the pieces in front are taken, and this one is ahead
    have hcut := cut_pieces (decode source)
    rw [hpieces] at hcut hahead
    rw [lexemes_append] at hahead
    obtain ⟨hfront, -⟩ := cut_append.mp hcut
    rw [List.append_nil] at hfront
    obtain ⟨s, hreaches, htakes⟩ := Scanner.exists_reaches hfront hahead rfl
    exact ⟨s, s.scanToken, hreaches, Scanner.turn_of_ahead (htakes.ahead_eq hahead) htakes.breakdown,
      htakes.reads.position.trans hoffset.symm⟩
  · rintro ⟨s, s', hreaches, hturn, rfl⟩
    obtain ⟨ps, hcut, htakes⟩ := Scanner.exists_cut_of_reaches hreaches
    obtain ⟨hmore, -, -⟩ := Scanner.turn_eq_some.mp hturn
    -- what was taken and what is ahead are all of the text, so the next piece of the text starts here
    have hdecode : decode source = lexemes ps ++ s.cursor.ahead := htakes.reads.ahead
    cases hrest : s.cursor.ahead with
    | nil =>
      rw [Cursor.atEnd_iff.mpr hrest] at hmore
      cases hmore
    | cons g rest =>
      have hpieces := pieces_lexemes_append hcut
      rw [← hdecode, hrest, pieces_cons] at hpieces
      exact ⟨⟨s.cursor.position, Piece.first g rest⟩,
        mem_place.mpr ⟨ps, _, hpieces, htakes.reads.position⟩, rfl⟩

/-- The characters at a span are decoded. -/
theorem SpanReads.decoded {source : Bytes} {span : Span} {lexeme rest : List Glyph}
    (h : SpanReads source span lexeme rest) : Decoded lexeme := by
  have hall := decoded_decode (source.drop span.offset)
  rw [h.here] at hall
  exact hall.of_append_left

/-- Only one piece can be munched from a text. -/
theorem Munched.unique {p q : Piece} {follow follow' : List Glyph} (hp : Munched p follow)
    (hq : Munched q follow') (h : p.lexeme ++ follow = q.lexeme ++ follow') : p = q := by
  obtain ⟨hhead, htail⟩ : p.head = q.head ∧ p.tail ++ follow = q.tail ++ follow' := List.cons.inj h
  rw [← first_of_munched hp, hhead, htail, first_of_munched hq]

/-- **The rules find the piece** that starts at the span. -/
theorem mem_placedPieces_of_munched {source : Bytes} {span : Span} {p : Piece} {rest : List Glyph}
    (hmunched : Munched p rest) (hstart : StartsPiece source span.offset)
    (hreads : SpanReads source span p.lexeme rest) :
    ⟨span.offset, p⟩ ∈ placedPieces source ∧ Placed.span ⟨span.offset, p⟩ = span := by
  obtain ⟨⟨offset, q⟩, hmem, rfl⟩ := hstart
  obtain ⟨rest', hdecode, hq⟩ := munched_of_mem_placedPieces hmem
  obtain rfl : q = p := hq.unique hmunched (hdecode.symm.trans hreads.here)
  obtain ⟨offset, length⟩ := span
  obtain rfl : q.width = length := hreads.width
  exact ⟨hmem, rfl⟩

/-- **A token goes back to its piece**, unless it closes the text. -/
theorem munched_of_mem_tokens {source : Bytes} {t : Token} (ht : t ∈ (scan source).tokens)
    (hend : t.kind ≠ .endOfInput) : StartsPiece source t.span.offset ∧
      ∃ p rest, SpanReads source t.span p.lexeme rest ∧ Munched p rest ∧
        p.reading = .token t.kind t.payload := by
  rcases mem_tokens_scan.mp ht with ⟨placed, hmem, htoken⟩ | rfl
  · obtain ⟨hreading, hspan⟩ := Placed.token?_eq_some.mp htoken
    obtain ⟨rest, hdecode, hmunched⟩ := munched_of_mem_placedPieces hmem
    rw [hspan]
    exact ⟨⟨placed, hmem, rfl⟩, placed.piece, rest, Placed.spanReads hdecode, hmunched, hreading⟩
  · exact absurd rfl hend

/-! ## Over one piece -/

section Pick

variable {α : Type} {pick : Placed → Option α} {spanOf : α → Span}

/-- **Over a placed piece there is only what is picked from it.** -/
theorem filter_overlaps_place
    (hspan : ∀ {placed : Placed} {x : α}, pick placed = some x → spanOf x = placed.span)
    {offset : Nat} {ps : List Piece} {placed : Placed} (h : placed ∈ place offset ps) :
    ((place offset ps).filterMap pick).filter (fun x => (spanOf x).overlaps placed.span) =
      (pick placed).toList := by
  induction ps generalizing offset with
  | nil => cases h
  | cons p ps ih =>
    rw [filterMap_place_cons, List.filter_append]
    rcases List.mem_cons.mp h with rfl | hmem
    · -- the first piece: what is picked from it overlaps it, and the other pieces lie behind it
      have hown : ∀ x ∈ (pick ⟨offset, p⟩).toList,
          (spanOf x).overlaps (Placed.span ⟨offset, p⟩) = true := by
        intro x hx
        rw [hspan (Option.mem_toList.mp hx)]
        exact Span.overlaps_self p.width_pos
      have hbehind : ∀ x ∈ (place (offset + p.width) ps).filterMap pick,
          ¬ (spanOf x).overlaps (Placed.span ⟨offset, p⟩) = true := by
        intro x hx
        rw [(Span.overlaps_of_le (le_offset_of_mem_filterMap_place hspan hx)).2]
        exact Bool.false_ne_true
      rw [List.filter_eq_self.mpr hown, List.filter_eq_nil_iff.mpr hbehind, List.append_nil]
    · have hbefore : ∀ x ∈ (pick ⟨offset, p⟩).toList, ¬ (spanOf x).overlaps placed.span = true := by
        intro x hx
        rw [hspan (Option.mem_toList.mp hx),
          (Span.overlaps_of_le (le_offset_of_mem_place hmem)).1]
        exact Bool.false_ne_true
      rw [List.filter_eq_nil_iff.mpr hbefore, List.nil_append, ih hmem]

end Pick

section Over

variable {source : Bytes} {placed : Placed}

/-- Over a piece there is the token that it is. -/
theorem tokensOver_piece (h : placed ∈ placedPieces source) :
    (scan source).tokensOver placed.span = placed.token?.toList := by
  have hend : (endToken source.length).span.overlaps placed.span = false :=
    (Span.overlaps_of_le (Placed.stop_le h)).2
  rw [Scan.tokensOver, tokens_scan, List.filter_append, List.filter_singleton, hend,
    cond_false, List.append_nil]
  exact filter_overlaps_place Placed.span_eq_of_token? h

/-- Over a piece there is the error that it is. -/
theorem errorsOver_piece (h : placed ∈ placedPieces source) :
    (scan source).errorsOver placed.span = placed.error?.toList :=
  filter_overlaps_place Placed.span_eq_of_error? h

/-- A piece that is a token is that token and nothing else. -/
theorem accepts_of_reading (h : placed ∈ placedPieces source) {kind : Kind} {payload : Payload}
    (hreading : placed.piece.reading = .token kind payload) :
    (scan source).Accepts placed.span kind payload := by
  constructor
  · rw [tokensOver_piece h, Placed.token?, hreading]
    rfl
  · rw [errorsOver_piece h, Placed.error?, hreading]
    rfl

/-- A faulty piece is one error and nothing else. -/
theorem rejects_of_reading (h : placed ∈ placedPieces source) {fault : Fault}
    (hreading : placed.piece.reading = .faulty fault) :
    (scan source).Rejects placed.span fault := by
  constructor
  · rw [tokensOver_piece h, Placed.token?, hreading]
    rfl
  · rw [errorsOver_piece h, Placed.error?, hreading]
    rfl

end Over

end LoxLexer
