import LoxLexer.Proofs.Cutting
import LoxLexer.Proofs.Reading
import LoxLexer.Scan

/-!
# `LoxLexer.Proofs.Placement` — tokens and errors of pieces put in their places

A scan is the pieces of a text, each at its offset, with the tokens and the errors picked out. This module
follows the two lists through the operations on pieces: appending pieces appends their tokens and errors, and
moving pieces moves them.

## Contents
- `Span.shift`, `Token.shift`, `LexicalError.shift` — a span, token or error moved to the right. Nothing
  but the offset changes.
- `Scan.properTokens`, `Scan.spans` — the tokens of a scan without the one that closes the text, and the
  spans of these tokens and of all errors by offset.
- `tokensAt`, `errorsAt` — what pieces at an offset contribute; `tokensAt_append` and `tokensAt_add` are
  the two laws. Whatever is picked out of placed pieces comes in their order (`pairwise_filterMap_place`).
- `properTokens_scan`, `errors_scan` — a scan returns what its pieces contribute. No piece that is a token or
  faulty starts with a newline (`lead_ne_newline`).
-/

namespace LoxLexer

/-! ## Moving to the right -/

/-- The span so many bytes further to the right. -/
def Span.shift (distance : Nat) (s : Span) : Span := { s with offset := s.offset + distance }

/-- The token so many bytes further to the right. -/
def Token.shift (distance : Nat) (t : Token) : Token := { t with span := t.span.shift distance }

/-- The error so many bytes further to the right. -/
def LexicalError.shift (distance : Nat) (e : LexicalError) : LexicalError :=
  { e with span := e.span.shift distance }

/-! ## The two lists of a scan -/

namespace Scan

/-- The tokens without the one that closes the text. -/
def properTokens (s : Scan) : List Token := s.tokens.filter (·.kind ≠ .endOfInput)

/-- The spans of the proper tokens and of the errors in one list, by offset. -/
def spans (s : Scan) : List Span :=
  (s.properTokens.map Token.span).merge (s.errors.map LexicalError.span)
    fun a b => a.offset ≤ b.offset

theorem mem_spans {s : Scan} {span : Span} : span ∈ s.spans ↔
    (∃ t ∈ s.properTokens, t.span = span) ∨ ∃ e ∈ s.errors, e.span = span := by
  rw [spans, List.mem_merge, List.mem_map, List.mem_map]

end Scan

/-! ## What pieces at an offset contribute -/

/-- The tokens among pieces put one after another from an offset on. -/
def tokensAt (offset : Nat) (ps : List Piece) : List Token :=
  (place offset ps).filterMap Placed.token?

/-- The errors among pieces put one after another from an offset on. -/
def errorsAt (offset : Nat) (ps : List Piece) : List LexicalError :=
  (place offset ps).filterMap Placed.error?

theorem length_textOf_cons (p : Piece) (ps : List Piece) :
    (textOf (p :: ps)).length = p.width + (textOf ps).length := by
  rw [textOf_cons, List.length_append]
  rfl

theorem place_append (offset : Nat) (ps qs : List Piece) :
    place offset (ps ++ qs) = place offset ps ++ place (offset + (textOf ps).length) qs := by
  induction ps generalizing offset with
  | nil => rfl
  | cons p ps ih =>
    rw [List.cons_append, place, place, ih, length_textOf_cons, Nat.add_assoc, List.cons_append]

theorem place_add (offset distance : Nat) (ps : List Piece) : place (offset + distance) ps =
    (place offset ps).map fun placed => { placed with offset := placed.offset + distance } := by
  induction ps generalizing offset with
  | nil => rfl
  | cons p ps ih => rw [place, place, List.map_cons, Nat.add_right_comm, ih]

theorem mem_place {placed : Placed} {offset : Nat} {ps : List Piece} :
    placed ∈ place offset ps ↔ ∃ before after, ps = before ++ placed.piece :: after ∧
      placed.offset = offset + (textOf before).length := by
  induction ps generalizing offset with
  | nil => simp [place]
  | cons p ps ih =>
    rw [place, List.mem_cons, ih]
    constructor
    · rintro (rfl | ⟨before, after, rfl, hoffset⟩)
      · exact ⟨[], ps, rfl, rfl⟩
      · refine ⟨p :: before, after, rfl, ?_⟩
        rw [hoffset, length_textOf_cons, Nat.add_assoc]
    · obtain ⟨place, piece⟩ := placed
      rintro ⟨before, after, heq, hoffset⟩
      cases before with
      | nil =>
        -- nothing in front: the placed piece is the first one
        obtain ⟨rfl, -⟩ := List.cons.inj heq
        left
        show Placed.mk place p = ⟨offset, p⟩
        exact congrArg (Placed.mk · p) hoffset
      | cons q before =>
        obtain ⟨rfl, hps⟩ := List.cons.inj heq
        right
        refine ⟨before, after, hps, ?_⟩
        rw [hoffset, length_textOf_cons, Nat.add_assoc]

/-- Pieces lie behind the offset from which they are put. -/
theorem le_offset_of_mem_place {placed : Placed} {offset : Nat} {ps : List Piece}
    (h : placed ∈ place offset ps) : offset ≤ placed.offset := by
  obtain ⟨before, after, -, hoffset⟩ := mem_place.mp h
  omega

/-- Pieces end where their text ends, or before. -/
theorem stop_le_of_mem_place {placed : Placed} {offset : Nat} {ps : List Piece}
    (h : placed ∈ place offset ps) :
    placed.offset + placed.piece.width ≤ offset + (textOf ps).length := by
  obtain ⟨before, after, rfl, hoffset⟩ := mem_place.mp h
  rw [textOf_append, List.length_append, length_textOf_cons]
  omega

/-- A piece of a text ends within it. -/
theorem Placed.stop_le {source : Bytes} {placed : Placed} (h : placed ∈ placedPieces source) :
    placed.offset + placed.piece.width ≤ source.length := by
  have hstop := stop_le_of_mem_place h
  rw [textOf_pieces, Nat.zero_add] at hstop
  exact hstop

/-- Pieces follow one another. -/
theorem pairwise_place (offset : Nat) (ps : List Piece) :
    (place offset ps).Pairwise fun a b => a.offset + a.piece.width ≤ b.offset := by
  induction ps generalizing offset with
  | nil => exact .nil
  | cons p ps ih =>
    rw [place]
    refine .cons ?_ (ih _)
    intro placed hplaced
    exact le_offset_of_mem_place hplaced

/-! ## What is picked out of pieces in their places

Tokens and errors are picked out of the placed pieces in the same way, so what does not depend on which of
the two is picked is said once, for any `pick`. -/

section Pick

variable {α : Type} {pick : Placed → Option α}

theorem filterMap_place_cons (offset : Nat) (p : Piece) (ps : List Piece) :
    (place offset (p :: ps)).filterMap pick =
      (pick ⟨offset, p⟩).toList ++ (place (offset + p.width) ps).filterMap pick := by
  rw [place, List.filterMap_cons]
  cases pick ⟨offset, p⟩ <;> rfl

/-- Moving the pieces moves what is picked. -/
theorem filterMap_place_add {shift : α → α} {distance : Nat}
    (hshift : ∀ placed : Placed,
      pick { placed with offset := placed.offset + distance } = (pick placed).map shift)
    (offset : Nat) (ps : List Piece) : (place (offset + distance) ps).filterMap pick =
      ((place offset ps).filterMap pick).map shift := by
  rw [place_add, List.filterMap_map, List.map_filterMap]
  apply List.filterMap_congr
  intro placed _
  exact hshift placed

variable {spanOf : α → Span}

theorem le_offset_of_mem_filterMap_place
    (hspan : ∀ {placed : Placed} {x : α}, pick placed = some x → spanOf x = placed.span)
    {offset : Nat} {ps : List Piece} {x : α} (h : x ∈ (place offset ps).filterMap pick) :
    offset ≤ (spanOf x).offset := by
  obtain ⟨placed, hplaced, hx⟩ := List.mem_filterMap.mp h
  rw [hspan hx]
  exact le_offset_of_mem_place hplaced

theorem pairwise_filterMap_place
    (hspan : ∀ {placed : Placed} {x : α}, pick placed = some x → spanOf x = placed.span)
    (offset : Nat) (ps : List Piece) :
    ((place offset ps).filterMap pick).Pairwise fun a b => (spanOf a).offset < (spanOf b).offset := by
  rw [List.pairwise_filterMap]
  apply (pairwise_place offset ps).imp
  intro a b hab x hx y hy
  rw [hspan hx, hspan hy]
  -- a piece is never empty, so the next one starts further to the right
  have hwidth := a.piece.width_pos
  show a.offset < b.offset
  omega

end Pick

/-! ## Tokens and errors of pieces at an offset -/

namespace Placed

variable {placed : Placed}

theorem token?_eq_some {t : Token} : placed.token? = some t ↔
    placed.piece.reading = .token t.kind t.payload ∧ t.span = placed.span := by
  obtain ⟨kind, span, payload⟩ := t
  unfold token?
  cases h : placed.piece.reading with
  | token kind' payload' =>
    simp only [Option.some.injEq, Token.mk.injEq, Reading.token.injEq]
    constructor
    · rintro ⟨rfl, rfl, rfl⟩
      exact ⟨⟨rfl, rfl⟩, rfl⟩
    · rintro ⟨⟨rfl, rfl⟩, rfl⟩
      exact ⟨rfl, rfl, rfl⟩
  | _ => simp

theorem error?_eq_some {e : LexicalError} : placed.error? = some e ↔
    placed.piece.reading = .faulty e.fault ∧ e.span = placed.span := by
  obtain ⟨fault, span⟩ := e
  unfold error?
  cases h : placed.piece.reading with
  | faulty fault' =>
    simp only [Option.some.injEq, LexicalError.mk.injEq, Reading.faulty.injEq]
    constructor
    · rintro ⟨rfl, rfl⟩
      exact ⟨rfl, rfl⟩
    · rintro ⟨rfl, rfl⟩
      exact ⟨rfl, rfl⟩
  | _ => simp

theorem span_eq_of_token? {t : Token} (h : placed.token? = some t) : t.span = placed.span :=
  (token?_eq_some.mp h).2

theorem span_eq_of_error? {e : LexicalError} (h : placed.error? = some e) : e.span = placed.span :=
  (error?_eq_some.mp h).2

end Placed

theorem token?_of_not_isToken {offset : Nat} {p : Piece} (h : ¬ p.isToken = true) :
    Placed.token? ⟨offset, p⟩ = none := by
  rw [Option.eq_none_iff_forall_not_mem]
  intro t ht
  exact h (Piece.isToken_iff.mpr ⟨t.kind, t.payload, (Placed.token?_eq_some.mp ht).1⟩)

theorem exists_token_of_isToken {p : Piece} (offset : Nat) (h : p.isToken = true) :
    ∃ t, Placed.token? ⟨offset, p⟩ = some t ∧ t.span = ⟨offset, p.width⟩ := by
  obtain ⟨kind, payload, hreading⟩ := Piece.isToken_iff.mp h
  exact ⟨⟨kind, ⟨offset, p.width⟩, payload⟩, Placed.token?_eq_some.mpr ⟨hreading, rfl⟩, rfl⟩

/-- What token a piece is, but for its place, does not depend on its place. -/
theorem token?_moved (offset : Nat) {offset' : Nat} (p : Piece) : Placed.token? ⟨offset', p⟩ =
    (Placed.token? ⟨offset, p⟩).map fun t => { t with span := ⟨offset', t.span.length⟩ } := by
  unfold Placed.token?
  cases p.reading <;> rfl

theorem error?_of_isToken {offset : Nat} {p : Piece} (h : p.isToken = true) :
    Placed.error? ⟨offset, p⟩ = none := by
  obtain ⟨kind, payload, hreading⟩ := Piece.isToken_iff.mp h
  simp [Placed.error?, hreading]

theorem tokensAt_cons (offset : Nat) (p : Piece) (ps : List Piece) : tokensAt offset (p :: ps) =
    (Placed.token? ⟨offset, p⟩).toList ++ tokensAt (offset + p.width) ps :=
  filterMap_place_cons offset p ps

theorem errorsAt_cons (offset : Nat) (p : Piece) (ps : List Piece) : errorsAt offset (p :: ps) =
    (Placed.error? ⟨offset, p⟩).toList ++ errorsAt (offset + p.width) ps :=
  filterMap_place_cons offset p ps

theorem tokensAt_append (offset : Nat) (ps qs : List Piece) : tokensAt offset (ps ++ qs) =
    tokensAt offset ps ++ tokensAt (offset + (textOf ps).length) qs := by
  unfold tokensAt
  rw [place_append, List.filterMap_append]

theorem errorsAt_append (offset : Nat) (ps qs : List Piece) : errorsAt offset (ps ++ qs) =
    errorsAt offset ps ++ errorsAt (offset + (textOf ps).length) qs := by
  unfold errorsAt
  rw [place_append, List.filterMap_append]

/-- Moving pieces moves their tokens. -/
theorem tokensAt_add (offset distance : Nat) (ps : List Piece) :
    tokensAt (offset + distance) ps = (tokensAt offset ps).map (Token.shift distance) := by
  apply filterMap_place_add
  intro placed
  unfold Placed.token?
  cases placed.piece.reading <;> rfl

/-- Moving pieces moves their errors. -/
theorem errorsAt_add (offset distance : Nat) (ps : List Piece) :
    errorsAt (offset + distance) ps = (errorsAt offset ps).map (LexicalError.shift distance) := by
  apply filterMap_place_add
  intro placed
  unfold Placed.error?
  cases placed.piece.reading <;> rfl

theorem le_offset_of_mem_tokensAt {offset : Nat} {ps : List Piece} {t : Token}
    (h : t ∈ tokensAt offset ps) : offset ≤ t.span.offset :=
  le_offset_of_mem_filterMap_place Placed.span_eq_of_token? h

theorem le_offset_of_mem_errorsAt {offset : Nat} {ps : List Piece} {e : LexicalError}
    (h : e ∈ errorsAt offset ps) : offset ≤ e.span.offset :=
  le_offset_of_mem_filterMap_place Placed.span_eq_of_error? h

/-- The faults of the pieces are reported, and nothing else is. -/
theorem exists_error_iff {offset : Nat} {ps : List Piece} {fault : Fault} :
    (∃ e ∈ errorsAt offset ps, e.fault = fault) ↔ ∃ p ∈ ps, p.reading = .faulty fault := by
  constructor
  · rintro ⟨e, he, rfl⟩
    obtain ⟨placed, hplaced, herror⟩ := List.mem_filterMap.mp he
    obtain ⟨before, after, rfl, -⟩ := mem_place.mp hplaced
    exact ⟨placed.piece, by simp, (Placed.error?_eq_some.mp herror).1⟩
  · rintro ⟨p, hp, hreading⟩
    obtain ⟨before, after, rfl⟩ := List.append_of_mem hp
    have hplaced : (⟨offset + (textOf before).length, p⟩ : Placed) ∈
        place offset (before ++ p :: after) := mem_place.mpr ⟨before, after, rfl, rfl⟩
    have herror : Placed.error? ⟨offset + (textOf before).length, p⟩ =
        some ⟨fault, ⟨offset + (textOf before).length, p.width⟩⟩ :=
      Placed.error?_eq_some.mpr ⟨hreading, rfl⟩
    exact ⟨_, List.mem_filterMap.mpr ⟨_, hplaced, herror⟩, rfl⟩

theorem tokensAt_eq_nil {ps : List Piece} (h : ∀ p ∈ ps, ¬ p.isToken = true) (offset : Nat) :
    tokensAt offset ps = [] := by
  induction ps generalizing offset with
  | nil => rfl
  | cons p ps ih =>
    obtain ⟨hp, hps⟩ := List.forall_mem_cons.mp h
    rw [tokensAt_cons, token?_of_not_isToken hp, ih hps]
    rfl

theorem errorsAt_eq_nil {ps : List Piece} (h : ∀ p ∈ ps, ∀ fault, p.reading ≠ .faulty fault)
    (offset : Nat) : errorsAt offset ps = [] := by
  rw [List.eq_nil_iff_forall_not_mem]
  intro e he
  obtain ⟨p, hp, hreading⟩ := exists_error_iff.mp ⟨e, he, rfl⟩
  exact h p hp e.fault hreading

/-! ## Scans in terms of pieces -/

theorem tokens_scan (source : Bytes) : (scan source).tokens =
    tokensAt 0 (pieces (decode source)) ++ [endToken source.length] := rfl

theorem errors_scan (source : Bytes) :
    (scan source).errors = errorsAt 0 (pieces (decode source)) := rfl

/-- The proper tokens are those of the pieces: no piece is an end-of-input token. -/
theorem properTokens_scan (source : Bytes) :
    (scan source).properTokens = tokensAt 0 (pieces (decode source)) := by
  have hproper : ∀ t ∈ tokensAt 0 (pieces (decode source)), decide (t.kind ≠ .endOfInput) = true := by
    intro t ht
    obtain ⟨placed, -, hplaced⟩ := List.mem_filterMap.mp ht
    have hkind := Piece.kind_ne_endOfInput (Placed.token?_eq_some.mp hplaced).1
    simpa using hkind
  rw [Scan.properTokens, tokens_scan, List.filter_append, List.filter_eq_self.mpr hproper]
  simp [endToken]

/-- A token of a scan is a piece of the text, or the one that closes it. -/
theorem mem_tokens_scan {source : Bytes} {t : Token} : t ∈ (scan source).tokens ↔
    (∃ placed ∈ placedPieces source, placed.token? = some t) ∨ t = endToken source.length := by
  rw [tokens_scan, List.mem_append, List.mem_singleton, tokensAt, List.mem_filterMap]
  rfl

/-- A piece of a text is what its first character starts in the text from there on. -/
theorem munched_of_mem_placedPieces {source : Bytes} {placed : Placed}
    (h : placed ∈ placedPieces source) : ∃ rest,
      decode (source.drop placed.offset) = placed.piece.lexeme ++ rest ∧ Munched placed.piece rest := by
  obtain ⟨before, after, hpieces, hoffset⟩ := mem_place.mp h
  obtain ⟨htext, -, hbehind⟩ := pieces_decode_split hpieces
  have hdrop : source.drop placed.offset = textOf (placed.piece :: after) := by
    rw [hoffset, Nat.zero_add, htext, List.drop_left]
  have hdecode : decode (source.drop placed.offset) = lexemes (placed.piece :: after) := by
    rw [hdrop, lexemes, ← hbehind, lexemes_pieces, hbehind]
  have hcut := cut_pieces (decode (textOf (placed.piece :: after)))
  rw [hbehind] at hcut
  refine ⟨lexemes after, hdecode, ?_⟩
  rw [← List.append_nil (lexemes after)]
  exact (cut_cons.mp hcut).1

/-- The bytes of a piece are what the text has from its offset on. -/
theorem drop_of_mem_placedPieces {source : Bytes} {placed : Placed} (h : placed ∈ placedPieces source) :
    ∃ rest, source.drop placed.offset = placed.piece.bytes ++ rest := by
  obtain ⟨rest, hdecode, -⟩ := munched_of_mem_placedPieces h
  refine ⟨spell rest, ?_⟩
  rw [← spell_decode (source.drop placed.offset), hdecode, spell_append]
  rfl

/-- A token or a faulty piece does not start with a newline. -/
theorem lead_ne_newline {source : Bytes} {placed : Placed} (h : placed ∈ placedPieces source)
    (hreading : placed.piece.reading ≠ .skipped) : placed.piece.head.lead ≠ newline := by
  obtain ⟨rest, hdecode, hmunched⟩ := munched_of_mem_placedPieces h
  have hdecoded : Decoded (placed.piece.head :: (placed.piece.tail ++ rest)) := by
    have hall := decoded_decode (source.drop placed.offset)
    rw [hdecode] at hall
    exact hall
  intro hlead
  have hmem : newline ∈ placed.piece.head.bytes := hlead ▸ List.mem_cons_self
  have hhead : placed.piece.head = ⟨newline, []⟩ := hdecoded.eq_of_mem_bytes (by decide) hmem
  have hblank : placed.piece.head.isBlank = true := by rw [hhead]; decide
  -- a newline alone is a blank, and blanks are skipped
  have hmunch := munch_of_munched hmunched
  rw [munch_blank hblank] at hmunch
  exact hreading (Piece.reading_eq_skipped_iff.mpr (Or.inl (congrArg Prod.fst hmunch).symm))

/-- The spans of a scan belong to pieces of the text. -/
theorem exists_placed_of_mem_spans {source : Bytes} {span : Span} (h : span ∈ (scan source).spans) :
    ∃ placed ∈ placedPieces source, placed.span = span := by
  rcases Scan.mem_spans.mp h with ⟨t, ht, rfl⟩ | ⟨e, he, rfl⟩
  · rw [properTokens_scan] at ht
    obtain ⟨placed, hmem, hplaced⟩ := List.mem_filterMap.mp ht
    exact ⟨placed, hmem, (Placed.span_eq_of_token? hplaced).symm⟩
  · obtain ⟨placed, hmem, hplaced⟩ := List.mem_filterMap.mp he
    exact ⟨placed, hmem, (Placed.span_eq_of_error? hplaced).symm⟩

end LoxLexer
