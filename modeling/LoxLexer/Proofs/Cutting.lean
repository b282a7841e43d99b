import LoxLexer.Proofs.Decoding
import LoxLexer.Proofs.Munching

/-!
# `LoxLexer.Proofs.Cutting` — texts cut into pieces, from the pieces' side

`pieces` cuts a list of characters from left to right. Here the cut is given first, and the question is
whether `pieces` would have made it: `Cut ps follow` holds when each piece of `ps` is munched in front of
the pieces after it and, behind them all, of `follow`. A cut can be taken apart, put together and moved
in front of another text, and each time `pieces` follows.

## Contents
- `Cut` — the given cut. `cut_pieces` and `pieces_lexemes_append` say that it is the one `pieces` makes.
- `cut_append`, `Cut.swap` — a cut in two parts, and a cut before another text.
- `pieces_decode_textOf`, `pieces_decode_split` — the same for bytes: a list of pieces is what a text is
  cut into, and a text taken apart between two of its pieces is cut as before on both sides.
-/

namespace LoxLexer

/-- The characters of a list of pieces. -/
def lexemes (ps : List Piece) : List Glyph := ps.flatMap Piece.lexeme

@[simp] theorem lexemes_nil : lexemes [] = [] := rfl

@[simp] theorem lexemes_cons (p : Piece) (ps : List Piece) :
    lexemes (p :: ps) = p.lexeme ++ lexemes ps := rfl

@[simp] theorem lexemes_append (ps qs : List Piece) : lexemes (ps ++ qs) = lexemes ps ++ lexemes qs :=
  List.flatMap_append

theorem lexemes_eq_nil_iff {ps : List Piece} : lexemes ps = [] ↔ ps = [] := by
  cases ps <;> simp [Piece.lexeme]

/-- The bytes of a list of pieces. -/
def textOf (ps : List Piece) : Bytes := spell (lexemes ps)

@[simp] theorem textOf_nil : textOf [] = [] := rfl

@[simp] theorem textOf_cons (p : Piece) (ps : List Piece) : textOf (p :: ps) = p.bytes ++ textOf ps := by
  unfold textOf
  rw [lexemes_cons, spell_append]
  rfl

@[simp] theorem textOf_append (ps qs : List Piece) : textOf (ps ++ qs) = textOf ps ++ textOf qs := by
  unfold textOf
  rw [lexemes_append, spell_append]

/-- The pieces of a text are the text. -/
theorem textOf_pieces (source : Bytes) : textOf (pieces (decode source)) = source := by
  unfold textOf lexemes
  rw [lexemes_pieces, spell_decode]

/-- The pieces of a text have the characters that the text decodes to. -/
theorem decoded_lexemes_pieces (source : Bytes) : Decoded (lexemes (pieces (decode source))) := by
  rw [lexemes, lexemes_pieces]
  exact decoded_decode source

/-! ## Cuts -/

/-- Each piece is munched in front of the pieces after it and of `follow` behind them. -/
inductive Cut : List Piece → List Glyph → Prop where
  | nil {follow} : Cut [] follow
  | cons {p ps follow} (hp : Munched p (lexemes ps ++ follow)) (hps : Cut ps follow) :
      Cut (p :: ps) follow

theorem cut_cons {p : Piece} {ps : List Piece} {follow : List Glyph} :
    Cut (p :: ps) follow ↔ Munched p (lexemes ps ++ follow) ∧ Cut ps follow := by
  constructor
  · rintro (_ | ⟨hp, hps⟩)
    exact ⟨hp, hps⟩
  · rintro ⟨hp, hps⟩
    exact .cons hp hps

/-- **A cut is the cut.** Where pieces are munched one after another, `pieces` finds them, and goes on
    with what follows. -/
theorem pieces_lexemes_append {ps : List Piece} {follow : List Glyph} (h : Cut ps follow) :
    pieces (lexemes ps ++ follow) = ps ++ pieces follow := by
  induction h with
  | nil => rfl
  | @cons p ps follow hp _ ih =>
    have htext : lexemes (p :: ps) ++ follow = p.head :: (p.tail ++ (lexemes ps ++ follow)) := by
      rw [lexemes_cons, List.append_assoc, Piece.lexeme, List.cons_append]
    rw [htext, pieces_cons, first_of_munched hp, drop_munch_of_munched hp, ih, List.cons_append]

/-- The pieces of a text are munched one after another. -/
theorem cut_pieces (glyphs : List Glyph) : Cut (pieces glyphs) [] := by
  fun_induction pieces glyphs with
  | case1 => exact .nil
  | case2 g rest ih =>
    refine .cons ?_ ih
    rw [List.append_nil, lexemes, lexemes_pieces]
    exact munched_first g rest

theorem cut_append {ps qs : List Piece} {follow : List Glyph} :
    Cut (ps ++ qs) follow ↔ Cut ps (lexemes qs ++ follow) ∧ Cut qs follow := by
  induction ps with
  | nil => exact ⟨fun h => ⟨.nil, h⟩, fun h => h.2⟩
  | cons p ps ih =>
    rw [List.cons_append, cut_cons, cut_cons, ih, lexemes_append, List.append_assoc, and_assoc]

/-- **A cut stays a cut** when the text behind it changes safely. If its last piece is unclosed, nothing
    may be put behind it. -/
theorem Cut.swap {ps : List Piece} {old new : List Glyph} (h : Cut ps old) (hswap : SafeSwap old new)
    (hopen : ∀ p ∈ ps.getLast?, p.isUnclosed = true → old = [] → new = []) : Cut ps new := by
  induction h with
  | nil => exact .nil
  | @cons p ps old hp hps ih =>
    have hlast : ∀ q ∈ ps.getLast?, q.isUnclosed = true → old = [] → new = [] := by
      intro q hq
      apply hopen q
      rw [List.getLast?_cons, Option.mem_def.mp hq]
      rfl
    refine .cons (hp.swap (hswap.append _) ?_) (ih hswap hlast)
    intro hunclosed hnil
    -- with nothing behind `p`, it is the last piece, and `hopen` is about it
    obtain ⟨hlexemes, hold⟩ := List.append_eq_nil_iff.mp hnil
    have hps : ps = [] := lexemes_eq_nil_iff.mp hlexemes
    subst hps
    rw [lexemes_nil, List.nil_append]
    exact hopen p rfl hunclosed hold

/-- What was cut in front of a text is cut in the same way without it. -/
theorem Cut.nil_follow {ps : List Piece} {follow : List Glyph} (h : Cut ps follow) : Cut ps [] :=
  h.swap (.nil follow) fun _ _ _ _ => rfl

/-! ## Cuts of byte strings -/

/-- A cut of decoded characters is the cut of their bytes. -/
theorem pieces_decode_textOf {ps : List Piece} (hcut : Cut ps []) (hdecoded : Decoded (lexemes ps)) :
    pieces (decode (textOf ps)) = ps := by
  have hpieces := pieces_lexemes_append hcut
  rw [List.append_nil, pieces_nil, List.append_nil] at hpieces
  rw [textOf, hdecoded, hpieces]

/-- **A text taken apart between two pieces** is cut as before on both sides. -/
theorem pieces_decode_split {source : Bytes} {ps qs : List Piece}
    (h : pieces (decode source) = ps ++ qs) :
    source = textOf ps ++ textOf qs ∧ pieces (decode (textOf ps)) = ps ∧
      pieces (decode (textOf qs)) = qs := by
  have hcut : Cut (ps ++ qs) [] := h ▸ cut_pieces (decode source)
  have hdecoded : Decoded (lexemes ps ++ lexemes qs) := by
    rw [← lexemes_append, ← h, lexemes, lexemes_pieces]
    exact decoded_decode source
  obtain ⟨hleft, hright⟩ := cut_append.mp hcut
  refine ⟨?_, ?_, ?_⟩
  · rw [← textOf_append, ← h, textOf_pieces]
  · exact pieces_decode_textOf hleft.nil_follow hdecoded.of_append_left
  · exact pieces_decode_textOf hright hdecoded.of_append_right

end LoxLexer
