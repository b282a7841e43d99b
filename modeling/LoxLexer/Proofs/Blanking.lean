import LoxLexer.Proofs.Placement

/-!
# `LoxLexer.Proofs.Blanking` — the tokens of a text depend only on the bytes of the tokens

Overwrite with a space every byte that lies in no token: whitespace, comments, and whatever an error was
reported about. What is left scans without errors and to the same tokens at the same places. So a faulty
piece never takes a character from a token beside it, and leaves none behind.

On the side of the pieces, a token stays and every other piece becomes as many blanks as it has bytes
(`blanked`). These are again the pieces of a text: a blank where something else was extends no token, and
no broken sequence in front of a token runs into it.

## Contents
- `Span.covers`, `blankOutside` — a byte inside a span, and a text blanked outside of some.
- `blanked` — the pieces of the blanked text. `cut_blanked` and `decoded_blanked` say that they are its
  pieces; `blankOutside_textOf` says that their text is the blanked one.
- `scan_blankOutside` — the scan of the blanked text.
-/

namespace LoxLexer

/-! ## Blanked texts -/

/-- The byte with the given offset lies inside the span. -/
def Span.covers (s : Span) (i : Nat) : Bool := s.offset ≤ i && i < s.offset + s.length

theorem Span.covers_iff {s : Span} {i : Nat} :
    s.covers i = true ↔ s.offset ≤ i ∧ i < s.offset + s.length := by
  simp [covers]

/-- The byte of a space. -/
def space : UInt8 := 0x20

/-- The text with a space in the place of every byte outside of all the spans. -/
def blankOutside (spans : List Span) (text : Bytes) : Bytes :=
  text.mapIdx fun i b => if spans.any (·.covers i) then b else space

/-! ## Blanked pieces -/

/-- A space as a piece of text. -/
def spacePiece : Piece := ⟨.blank, ⟨space, []⟩, []⟩

/-- A token stays, and any other piece becomes as many spaces as it has bytes. -/
def Piece.blanked (p : Piece) : List Piece :=
  if p.isToken then [p] else List.replicate p.width spacePiece

/-- Pieces with spaces in the place of all that are no tokens. -/
def blanked (ps : List Piece) : List Piece := ps.flatMap Piece.blanked

theorem blanked_cons (p : Piece) (ps : List Piece) : blanked (p :: ps) = p.blanked ++ blanked ps := rfl

theorem Piece.blanked_of_isToken {p : Piece} (h : p.isToken = true) : p.blanked = [p] := by
  rw [blanked, if_pos h]

theorem Piece.blanked_of_not_isToken {p : Piece} (h : ¬ p.isToken = true) :
    p.blanked = List.replicate p.width spacePiece := by
  rw [blanked, if_neg h]

/-- A piece is never empty, so what it is blanked to starts with a space. -/
theorem Piece.exists_blanked_eq_cons {p : Piece} (h : ¬ p.isToken = true) :
    ∃ n, p.blanked = spacePiece :: List.replicate n spacePiece := by
  obtain ⟨n, hn⟩ := Nat.exists_eq_succ_of_ne_zero (Nat.ne_of_gt p.width_pos)
  refine ⟨n, ?_⟩
  rw [blanked_of_not_isToken h, hn, List.replicate_succ]

theorem isBlank_space : (⟨space, []⟩ : Glyph).isBlank = true := by decide

theorem textOf_replicate_space (n : Nat) :
    textOf (List.replicate n spacePiece) = List.replicate n space := by
  induction n with
  | zero => rfl
  | succ n ih =>
    rw [List.replicate_succ, textOf_cons, ih, List.replicate_succ]
    rfl

theorem length_textOf_blanked (p : Piece) : (textOf p.blanked).length = p.width := by
  by_cases h : p.isToken = true
  · rw [Piece.blanked_of_isToken h, length_textOf_cons]
    rfl
  · rw [Piece.blanked_of_not_isToken h, textOf_replicate_space, List.length_replicate]

/-! ## The blanked pieces are the pieces of their text -/

/-- In front of the blanked pieces a token sees what it saw before, or a blank. -/
theorem safeSwap_blanked (ps : List Piece) : SafeSwap (lexemes ps) (lexemes (blanked ps)) := by
  induction ps with
  | nil => exact .nil _
  | cons p ps ih =>
    by_cases h : p.isToken = true
    · rw [blanked_cons, Piece.blanked_of_isToken h, List.singleton_append, lexemes_cons, lexemes_cons]
      exact ih.append p.lexeme
    · obtain ⟨n, hn⟩ := Piece.exists_blanked_eq_cons h
      rw [blanked_cons, hn]
      exact .blank isBlank_space _ _

theorem cut_replicate_space (n : Nat) (follow : List Glyph) :
    Cut (List.replicate n spacePiece) follow := by
  induction n with
  | zero => exact .nil
  | succ n ih => exact .cons (.blank isBlank_space) ih

theorem cut_blanked {ps : List Piece} (h : Cut ps []) : Cut (blanked ps) [] := by
  induction ps with
  | nil => exact .nil
  | cons p ps ih =>
    obtain ⟨hp, hps⟩ := cut_cons.mp h
    rw [blanked_cons]
    refine cut_append.mpr ⟨?_, ih hps⟩
    by_cases htoken : p.isToken = true
    · -- a token stays: it is closed, and what is in front of it now shows it nothing new
      rw [Piece.blanked_of_isToken htoken]
      rw [List.append_nil] at hp
      refine .cons ?_ .nil
      rw [lexemes_nil, List.nil_append, List.append_nil]
      apply hp.swap (safeSwap_blanked ps)
      intro hopen
      rw [Piece.isUnclosed_of_isToken htoken] at hopen
      cases hopen
    · rw [Piece.blanked_of_not_isToken htoken]
      exact cut_replicate_space _ _

/-- No sequence runs into the blanked pieces: they start with a token, with a space, or not at all. -/
theorem startsAfresh_blanked {ps : List Piece} (hcut : Cut ps []) (hdecoded : Decoded (lexemes ps)) :
    StartsAfresh (textOf (blanked ps)) := by
  cases ps with
  | nil => exact startsAfresh_nil
  | cons p ps =>
    rw [blanked_cons, textOf_append]
    by_cases htoken : p.isToken = true
    · -- the head of a token is a character of the language, so it is no stray continuation byte
      have hcode := Piece.head_code_ne_replacement (cut_cons.mp hcut).1 htoken
      have htext : textOf p.blanked ++ textOf (blanked ps) =
          p.head.bytes ++ (spell p.tail ++ textOf (blanked ps)) := by
        rw [Piece.blanked_of_isToken htoken, textOf_cons, textOf_nil, List.append_nil,
          ← List.append_assoc]
        rfl
      rw [htext]
      exact StartsAfresh.of_code hdecoded hcode _
    · obtain ⟨n, hn⟩ := Piece.exists_blanked_eq_cons htoken
      have htext : textOf p.blanked ++ textOf (blanked ps) =
          space :: (textOf (List.replicate n spacePiece) ++ textOf (blanked ps)) := by
        rw [hn, textOf_cons]
        rfl
      rw [htext]
      exact startsAfresh_cons (by decide)

theorem decoded_replicate_space {n : Nat} {glyphs : List Glyph} (h : Decoded glyphs) :
    Decoded (lexemes (List.replicate n spacePiece) ++ glyphs) := by
  induction n with
  | zero => exact h
  | succ n ih => exact Decoded.ascii_cons (by decide) ih

theorem decoded_blanked {ps : List Piece} (hcut : Cut ps []) (hdecoded : Decoded (lexemes ps)) :
    Decoded (lexemes (blanked ps)) := by
  induction ps with
  | nil => exact decoded_nil
  | cons p ps ih =>
    rw [lexemes_cons] at hdecoded
    have hps := (cut_cons.mp hcut).2
    have hrest := ih hps hdecoded.of_append_right
    rw [blanked_cons, lexemes_append]
    by_cases htoken : p.isToken = true
    · rw [Piece.blanked_of_isToken htoken, lexemes_cons, lexemes_nil, List.append_nil]
      exact hdecoded.of_append_left.append hrest
        (startsAfresh_blanked hps hdecoded.of_append_right)
    · rw [Piece.blanked_of_not_isToken htoken]
      exact decoded_replicate_space hrest

/-! ## The blanked pieces have the tokens of the old ones -/

theorem tokensAt_replicate_space (offset n : Nat) :
    tokensAt offset (List.replicate n spacePiece) = [] := by
  induction n generalizing offset with
  | zero => rfl
  | succ n ih =>
    rw [List.replicate_succ, tokensAt_cons, ih]
    rfl

theorem tokensAt_blanked (offset : Nat) (ps : List Piece) :
    tokensAt offset (blanked ps) = tokensAt offset ps := by
  induction ps generalizing offset with
  | nil => rfl
  | cons p ps ih =>
    rw [blanked_cons, tokensAt_append, length_textOf_blanked, ih, tokensAt_cons]
    by_cases htoken : p.isToken = true
    · rw [Piece.blanked_of_isToken htoken, tokensAt_cons]
      exact congrArg (· ++ _) (List.append_nil _)
    · rw [Piece.blanked_of_not_isToken htoken, tokensAt_replicate_space,
        token?_of_not_isToken htoken]
      rfl

/-- Tokens and spaces are no errors. -/
theorem errorsAt_blanked (offset : Nat) (ps : List Piece) : errorsAt offset (blanked ps) = [] := by
  rw [List.eq_nil_iff_forall_not_mem]
  intro e he
  obtain ⟨q, hq, hreading⟩ := exists_error_iff.mp ⟨e, he, rfl⟩
  obtain ⟨p, -, hp⟩ := List.mem_flatMap.mp hq
  by_cases htoken : p.isToken = true
  · rw [Piece.blanked_of_isToken htoken, List.mem_singleton] at hp
    obtain ⟨kind, payload, htoken⟩ := Piece.isToken_iff.mp htoken
    rw [hp, htoken] at hreading
    cases hreading
  · rw [Piece.blanked_of_not_isToken htoken] at hp
    rw [(List.mem_replicate.mp hp).2] at hreading
    cases hreading

/-! ## The text of the blanked pieces -/

/-- Inside the first piece, a byte is covered exactly where that piece is a token. -/
theorem any_covers_first {offset i : Nat} {p : Piece} (ps : List Piece) (hle : offset ≤ i)
    (hlt : i < offset + p.width) :
    (tokensAt offset (p :: ps)).any (·.span.covers i) = p.isToken := by
  -- the tokens of later pieces start behind the byte
  have hlater : (tokensAt (offset + p.width) ps).any (·.span.covers i) = false := by
    rw [List.any_eq_false]
    intro t ht hcovers
    have hoffset := le_offset_of_mem_tokensAt ht
    have hinside := Span.covers_iff.mp hcovers
    omega
  rw [tokensAt_cons, List.any_append, hlater, Bool.or_false]
  by_cases htoken : p.isToken = true
  · obtain ⟨t, ht, hspan⟩ := exists_token_of_isToken offset htoken
    simp [ht, hspan, Span.covers, hle, hlt, htoken]
  · rw [token?_of_not_isToken htoken, Bool.eq_false_iff.mpr htoken]
    rfl

/-- Behind the first piece, only later pieces cover. -/
theorem any_covers_later {offset i : Nat} {p : Piece} (ps : List Piece) (hle : offset + p.width ≤ i) :
    (tokensAt offset (p :: ps)).any (·.span.covers i) =
      (tokensAt (offset + p.width) ps).any (·.span.covers i) := by
  -- the token of the first piece, if it is one, ends in front of the byte
  have hfirst : ((Placed.token? ⟨offset, p⟩).toList.any (·.span.covers i)) = false := by
    rw [List.any_eq_false]
    intro t ht hcovers
    rw [Placed.span_eq_of_token? (Option.mem_toList.mp ht)] at hcovers
    have hinside : offset ≤ i ∧ i < offset + p.width := Span.covers_iff.mp hcovers
    omega
  rw [tokensAt_cons, List.any_append, hfirst, Bool.false_or]

/-- Blanking the bytes of pieces that start at an offset, for any spans that cover what their tokens do. -/
theorem mapIdx_textOf (offset : Nat) (ps : List Piece) (covered : Nat → Bool)
    (h : ∀ i, offset ≤ i → covered i = (tokensAt offset ps).any (·.span.covers i)) :
    (textOf ps).mapIdx (fun i b => if covered (offset + i) then b else space) =
      textOf (blanked ps) := by
  induction ps generalizing offset with
  | nil => rfl
  | cons p ps ih =>
    have hfirst : p.bytes.mapIdx (fun i b => if covered (offset + i) then b else space) =
        textOf p.blanked := by
      have hcovered : ∀ i, i < p.bytes.length → covered (offset + i) = p.isToken := by
        intro i hi
        rw [h _ (Nat.le_add_right _ _)]
        exact any_covers_first ps (Nat.le_add_right _ _) (Nat.add_lt_add_left hi _)
      by_cases htoken : p.isToken = true
      · rw [Piece.blanked_of_isToken htoken, textOf_cons, textOf_nil, List.append_nil]
        apply List.ext_getElem (by simp)
        intro i hi hi'
        rw [List.getElem_mapIdx, hcovered i hi', if_pos htoken]
      · rw [Piece.blanked_of_not_isToken htoken, textOf_replicate_space]
        apply List.mapIdx_eq_replicate_iff.mpr
        intro i hi
        rw [hcovered i hi, if_neg htoken]
    -- behind the first piece the indices are those of the other pieces, moved by its width
    have hlater : (textOf ps).mapIdx
        (fun i b => if covered (offset + (i + p.bytes.length)) then b else space) =
        textOf (blanked ps) := by
      rw [← ih (offset + p.width)]
      · simp only [Nat.add_assoc, Nat.add_comm p.width]
        rfl
      · intro i hi
        rw [h i (by omega)]
        exact any_covers_later ps hi
    rw [textOf_cons, List.mapIdx_append, hfirst, hlater, blanked_cons, textOf_append]

/-- The blanked text is the text of the blanked pieces: the closing token covers nothing. -/
theorem blankOutside_scan (source : Bytes) :
    blankOutside ((scan source).tokens.map Token.span) source =
      textOf (blanked (pieces (decode source))) := by
  have hcovered : ∀ i, 0 ≤ i → ((scan source).tokens.map Token.span).any (·.covers i) =
      (tokensAt 0 (pieces (decode source))).any (·.span.covers i) := by
    intro i _
    have hend : (endToken source.length).span.covers i = false := by
      rw [Bool.eq_false_iff]
      intro h
      have hinside : source.length ≤ i ∧ i < source.length + 0 := Span.covers_iff.mp h
      omega
    rw [List.any_map, tokens_scan, List.any_append]
    simp [hend, Function.comp_def]
  have htext := mapIdx_textOf 0 (pieces (decode source)) _ hcovered
  simp only [Nat.zero_add, textOf_pieces] at htext
  exact htext

/-- **Only the bytes of the tokens matter.** A text with a space in the place of every byte that lies in no
    token scans without errors, and to the same tokens. -/
theorem scan_blankOutside (source : Bytes) :
    let blankedSource := blankOutside ((scan source).tokens.map Token.span) source
    (scan blankedSource).status = .ok ∧ (scan blankedSource).errors = [] ∧
      (scan blankedSource).tokens = (scan source).tokens := by
  intro blankedSource
  have htext : blankedSource = textOf (blanked (pieces (decode source))) := blankOutside_scan source
  have hpieces : pieces (decode blankedSource) = blanked (pieces (decode source)) := by
    have hcut := cut_pieces (decode source)
    have hdecoded : Decoded (lexemes (pieces (decode source))) := by
      rw [lexemes, lexemes_pieces]
      exact decoded_decode source
    rw [htext]
    exact pieces_decode_textOf (cut_blanked hcut) (decoded_blanked hcut hdecoded)
  have herrors : (scan blankedSource).errors = [] := by
    rw [errors_scan, hpieces, errorsAt_blanked]
  refine ⟨?_, herrors, ?_⟩
  · rw [Scan.status, herrors]
    rfl
  · have hlength : blankedSource.length = source.length := List.length_mapIdx
    rw [tokens_scan, tokens_scan, hpieces, tokensAt_blanked, hlength]

end LoxLexer
