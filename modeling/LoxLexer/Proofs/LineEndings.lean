import LoxLexer.Proofs.Reading
import LoxLexer.Proofs.Unifying

/-!
# `LoxLexer.Proofs.LineEndings` — a program scans alike with either kind of line ending

Bringing the line endings of a text to one kind moves its tokens and errors and changes nothing else: not
how many there are, not their kinds, payloads or wording, and not the line and the column in which they
start. Only the text of a string is unified along with the rest.

On the side of the pieces, a carriage return in front of a newline is a blank of its own or part of a
longer piece that goes on with the newline: no other piece ends in a carriage return. The first is left
out and the second grows shorter (`unifiedPieces`), and the pieces beside it see a newline where they saw
a carriage return, which is a blank as well.

## Contents
- `Piece.unified`, `unifiedPieces` — the pieces of the unified text. `cut_unifiedPieces` and
  `lexemes_unifiedPieces` say that they are its pieces.
- `Token.unified`, `LexicalError.unified` — what becomes of a token and of an error.
- `scan_unifyNewlines` — the scan of the unified text.
-/

namespace LoxLexer

/-! ## Unified pieces -/

/-- Pieces of this form may go on from line to line. -/
def Form.spansLines : Form → Bool
  | .string | .openString | .lineComment | .blockComment | .openComment => true
  | _ => false

namespace Piece

/-- The piece with its line endings unified. Its first character stays. -/
def unified (p : Piece) : Piece := { p with tail := unifyGlyphs p.tail }

/-- The piece is a carriage return, and a newline follows it. -/
def IsDropped (p : Piece) (follow : List Glyph) : Prop :=
  p.head = returnGlyph ∧ follow.head? = some newlineGlyph

instance (p : Piece) (follow : List Glyph) : Decidable (p.IsDropped follow) :=
  inferInstanceAs (Decidable (_ ∧ _))

end Piece

/-- The pieces of a text with its line endings unified. -/
def unifiedPieces : List Piece → List Piece
  | [] => []
  | p :: ps => if p.IsDropped (lexemes ps) then unifiedPieces ps else p.unified :: unifiedPieces ps

theorem Glyph.ne_return_of_is {g : Glyph} {c : Char} (h : g.is c = true) (hc : c.toNat ≠ 13) :
    g ≠ returnGlyph := by
  rintro rfl
  exact hc (is_iff.mp h).symm

/-- A character other than the carriage return is kept. -/
theorem unifyGlyphs_cons_of_is {g : Glyph} {rest : List Glyph} {c : Char} (h : g.is c = true)
    (hc : c.toNat ≠ 13) : unifyGlyphs (g :: rest) = g :: unifyGlyphs rest :=
  dropBefore_cons_of_ne (Glyph.ne_return_of_is h hc)

/-- What holds of all characters holds of those that are kept. -/
theorem forall_unifyGlyphs {q : Glyph → Prop} {glyphs : List Glyph} (h : ∀ x ∈ glyphs, q x) :
    ∀ x ∈ unifyGlyphs glyphs, q x :=
  fun x hx => h x ((dropBefore_sublist _ _ glyphs).subset hx)

/-- The last character is kept. -/
theorem exists_unifyGlyphs_concat (body : List Glyph) (close : Glyph) :
    ∃ kept, unifyGlyphs (body ++ [close]) = kept ++ [close] ∧ ∀ x ∈ kept, x ∈ body := by
  induction body with
  | nil => exact ⟨[], dropBefore_singleton close, by simp⟩
  | cons g body ih =>
    obtain ⟨kept, hkept, hsub⟩ := ih
    unfold unifyGlyphs at hkept ⊢
    by_cases hdrop : g = returnGlyph ∧ (body ++ [close]).head? = some newlineGlyph
    · refine ⟨kept, ?_, fun x hx => List.mem_cons_of_mem g (hsub x hx)⟩
      rw [List.cons_append, dropBefore_of_drop hdrop, hkept]
    · refine ⟨g :: kept, ?_, ?_⟩
      · rw [List.cons_append, dropBefore_of_keep hdrop, hkept, List.cons_append]
      · exact List.cons_subset_cons g hsub

/-- A character in front of which something is dropped is a newline, and no slash. -/
theorem NoClose.unifyGlyphs {glyphs : List Glyph} (h : NoClose glyphs) : NoClose (unifyGlyphs glyphs) := by
  unfold LoxLexer.unifyGlyphs
  induction glyphs with
  | nil => exact h
  | cons g rest ih =>
    have hrest := ih h.tail
    by_cases hdrop : g = returnGlyph ∧ rest.head? = some newlineGlyph
    · rw [dropBefore_of_drop hdrop]
      exact hrest
    · rw [dropBefore_of_keep hdrop]
      refine List.isChain_cons.mpr ⟨?_, hrest⟩
      intro y hy
      rcases head?_dropBefore (by decide) y hy with rfl | hy
      · exact Bool.and_false _
      · exact (List.isChain_cons.mp h).1 y hy

/-- Unifying the text behind a piece shows the piece nothing new but newlines. -/
theorem SafeSwap.unifyGlyphs (glyphs : List Glyph) : SafeSwap glyphs (unifyGlyphs glyphs) := by
  unfold LoxLexer.unifyGlyphs
  induction glyphs with
  | nil => exact .nil []
  | cons g rest ih =>
    by_cases hdrop : g = returnGlyph ∧ rest.head? = some newlineGlyph
    · obtain ⟨more, rfl⟩ := List.head?_eq_some_iff.mp hdrop.2
      rw [dropBefore_of_drop hdrop, dropBefore_cons_of_ne (by decide)]
      exact .blank (by decide) _ _
    · rw [dropBefore_of_keep hdrop]
      exact ih.cons g

/-! ## One piece -/

namespace Munched

variable {p : Piece} {follow : List Glyph}

/-- A piece that starts with a carriage return is one. -/
theorem tail_of_return (h : Munched p follow) (hhead : p.head = returnGlyph) :
    p.form = .blank ∧ p.tail = [] := by
  have hblank : p.head.isBlank = true := by rw [hhead]; decide
  have hmunch := munch_of_munched h
  rw [munch_blank hblank] at hmunch
  exact ⟨(congrArg Prod.fst hmunch).symm, List.eq_nil_of_length_eq_zero (congrArg Prod.snd hmunch).symm⟩

/-- Only strings and comments have carriage returns behind their first character. -/
theorem return_not_mem_tail (h : Munched p follow) (hform : p.form.spansLines = false) :
    returnGlyph ∉ p.tail := by
  intro hmem
  cases h with
  | blank => cases hmem
  | word _ hbody => exact absurd (hbody _ hmem) (by decide)
  | integer _ hbody => exact absurd (hbody _ hmem) (by decide)
  | decimal _ hwhole hpoint hfirst hfraction =>
    simp only [List.mem_append, List.mem_cons] at hmem
    rcases hmem with hmem | rfl | rfl | hmem
    · exact absurd (hwhole _ hmem) (by decide)
    · exact absurd hpoint (by decide)
    · exact absurd hfirst (by decide)
    · exact absurd (hfraction _ hmem) (by decide)
  | pair hcodes =>
    obtain rfl := List.mem_singleton.mp hmem
    exact absurd (Symbol.pair_codes hcodes).1 (by decide)
  | single => cases hmem
  | stray => cases hmem
  | _ => cases hform

theorem unified_eq_self (h : Munched p follow) (hform : p.form.spansLines = false) : p.unified = p := by
  have htail : unifyGlyphs p.tail = p.tail :=
    dropBefore_of_not_mem (Or.inl (h.return_not_mem_tail hform))
  rw [Piece.unified, htail]

/-- No piece ends in a carriage return in front of a newline but that carriage return itself. -/
theorem noSeam (h : Munched p follow) (hkeep : ¬ p.IsDropped follow) :
    NoSeam returnGlyph newlineGlyph p.lexeme follow := by
  rintro ⟨hlast, hnewline⟩
  by_cases hform : p.form.spansLines = false
  · rcases List.mem_cons.mp (List.mem_of_getLast? hlast) with hhead | htail
    · exact hkeep ⟨hhead.symm, hnewline⟩
    · exact h.return_not_mem_tail hform htail
  · -- a string and a comment end in the character that closes them, if anything follows
    have hclosing : ∀ (front : List Glyph) {close : Glyph} {c : Char}, close.is c = true →
        c.toNat ≠ 13 → (front ++ [close]).getLast? ≠ some returnGlyph := by
      intro front close c hclose hc hlast
      rw [List.getLast?_concat] at hlast
      exact Glyph.ne_return_of_is hclose hc (Option.some.inj hlast)
    cases h with
    | @string g body close _ hg hbody hclose => exact hclosing (g :: body) hclose (by decide) hlast
    | @lineComment g second body close _ hg hsecond hbody hclose =>
      exact hclosing (g :: second :: body) hclose (by decide) hlast
    | @blockComment g second body star slash _ hg hsecond hbody hstar hslash =>
      have hsplit : Piece.lexeme ⟨.blockComment, g, second :: (body ++ [star, slash])⟩ =
          g :: second :: (body ++ [star]) ++ [slash] := by
        simp [Piece.lexeme]
      rw [hsplit] at hlast
      exact hclosing _ hslash (by decide) hlast
    | openString => cases hnewline
    | lastComment => cases hnewline
    | openComment => cases hnewline
    | _ => exact hform rfl

/-- **A piece stays a piece** when its own line endings and those behind it are unified. -/
theorem unified (h : Munched p follow) : Munched p.unified (unifyGlyphs follow) := by
  by_cases hform : p.form.spansLines = false
  · rw [h.unified_eq_self hform]
    apply h.swap (.unifyGlyphs follow)
    rintro - rfl
    rfl
  · cases h with
    | @string g body close _ hg hbody hclose =>
      obtain ⟨kept, hkept, hsub⟩ := exists_unifyGlyphs_concat body close
      show Munched ⟨.string, g, unifyGlyphs (body ++ [close])⟩ _
      rw [hkept]
      exact .string hg (fun x hx => hbody x (hsub x hx)) hclose
    | openString hg hbody => exact .openString hg (forall_unifyGlyphs hbody)
    | @lineComment g second body close _ hg hsecond hbody hclose =>
      obtain ⟨kept, hkept, hsub⟩ := exists_unifyGlyphs_concat body close
      show Munched ⟨.lineComment, g, unifyGlyphs (second :: (body ++ [close]))⟩ _
      rw [unifyGlyphs_cons_of_is hsecond (by decide), hkept]
      exact .lineComment hg hsecond (fun x hx => hbody x (hsub x hx)) hclose
    | @lastComment g second body hg hsecond hbody =>
      show Munched ⟨.lineComment, g, unifyGlyphs (second :: body)⟩ []
      rw [unifyGlyphs_cons_of_is hsecond (by decide)]
      exact .lastComment hg hsecond (forall_unifyGlyphs hbody)
    | @blockComment g second body star slash _ hg hsecond hbody hstar hslash =>
      obtain ⟨kept, hkept, -⟩ := exists_unifyGlyphs_concat body star
      have hclose := hbody.unifyGlyphs
      rw [hkept] at hclose
      have hseam : NoSeam returnGlyph newlineGlyph (body ++ [star]) [slash] := by
        rintro ⟨-, hslash'⟩
        obtain rfl := Option.some.inj hslash'
        exact absurd hslash (by decide)
      have hsplit : body ++ [star, slash] = body ++ [star] ++ [slash] := by simp
      have htail : unifyGlyphs (body ++ [star, slash]) = kept ++ [star, slash] := by
        rw [hsplit, unifyGlyphs, dropBefore_append hseam, dropBefore_singleton]
        rw [unifyGlyphs] at hkept
        rw [hkept, List.append_assoc]
        rfl
      show Munched ⟨.blockComment, g, unifyGlyphs (second :: (body ++ [star, slash]))⟩ _
      rw [unifyGlyphs_cons_of_is hsecond (by decide), htail]
      exact .blockComment hg hsecond hclose hstar hslash
    | @openComment g second body hg hsecond hbody =>
      show Munched ⟨.openComment, g, unifyGlyphs (second :: body)⟩ []
      rw [unifyGlyphs_cons_of_is hsecond (by decide)]
      exact .openComment hg hsecond hbody.unifyGlyphs
    | _ => exact absurd rfl hform

end Munched

/-! ## All pieces of a text -/

/-- A piece that is not left out keeps its first character. -/
theorem Munched.unifyGlyphs_lexeme {p : Piece} {follow : List Glyph} (h : Munched p follow) :
    unifyGlyphs p.lexeme = p.unified.lexeme := by
  by_cases hhead : p.head = returnGlyph
  · have htail := (h.tail_of_return hhead).2
    rw [Piece.lexeme, Piece.lexeme, Piece.unified, htail]
    exact dropBefore_singleton p.head
  · exact dropBefore_cons_of_ne hhead

theorem lexemes_unifiedPieces {ps : List Piece} (h : Cut ps []) :
    lexemes (unifiedPieces ps) = unifyGlyphs (lexemes ps) := by
  induction ps with
  | nil => rfl
  | cons p ps ih =>
    obtain ⟨hp, hps⟩ := cut_cons.mp h
    rw [List.append_nil] at hp
    have hrest := ih hps
    rw [unifiedPieces, lexemes_cons]
    by_cases hdrop : p.IsDropped (lexemes ps)
    · have hlexeme : p.lexeme = [returnGlyph] := by
        rw [Piece.lexeme, (hp.tail_of_return hdrop.1).2, hdrop.1]
      rw [if_pos hdrop, hrest, hlexeme, List.singleton_append]
      exact (dropBefore_of_drop ⟨rfl, hdrop.2⟩).symm
    · rw [if_neg hdrop, lexemes_cons, hrest, ← hp.unifyGlyphs_lexeme]
      exact (dropBefore_append (hp.noSeam hdrop)).symm

theorem cut_unifiedPieces {ps : List Piece} (h : Cut ps []) : Cut (unifiedPieces ps) [] := by
  induction ps with
  | nil => exact .nil
  | cons p ps ih =>
    obtain ⟨hp, hps⟩ := cut_cons.mp h
    rw [List.append_nil] at hp
    rw [unifiedPieces]
    by_cases hdrop : p.IsDropped (lexemes ps)
    · rw [if_pos hdrop]
      exact ih hps
    · rw [if_neg hdrop]
      refine .cons ?_ (ih hps)
      rw [lexemes_unifiedPieces hps, List.append_nil]
      exact hp.unified

theorem textOf_unifiedPieces {ps : List Piece} (hcut : Cut ps []) (hdecoded : Decoded (lexemes ps)) :
    textOf (unifiedPieces ps) = unifyNewlines (textOf ps) := by
  rw [textOf, lexemes_unifiedPieces hcut, spell_unifyGlyphs hdecoded]
  rfl

/-- **The unified pieces** are the pieces of the unified text. -/
theorem pieces_decode_unifyNewlines (text : Bytes) :
    pieces (decode (unifyNewlines text)) = unifiedPieces (pieces (decode text)) := by
  have hcut := cut_pieces (decode text)
  have hlexemes : lexemes (unifiedPieces (pieces (decode text))) = decode (unifyNewlines text) := by
    rw [lexemes_unifiedPieces hcut, decode_unifyNewlines, lexemes, lexemes_pieces]
  have hpieces := pieces_lexemes_append (cut_unifiedPieces hcut)
  rwa [hlexemes, List.append_nil, pieces_nil, List.append_nil] at hpieces

/-! ## What the unified pieces mean -/

/-- The text of a string is unified; every other payload stays. -/
def Payload.unified (kind : Kind) (payload : Payload) : Payload :=
  match kind, payload with
  | .string, .text content => .text (unifyNewlines content)
  | _, payload => payload

theorem Payload.unified_of_ne {kind : Kind} (h : kind ≠ .string) (payload : Payload) :
    payload.unified kind = payload := by
  unfold unified
  split
  · exact absurd rfl h
  · rfl

/-- The reading with the text of a string unified. -/
def Reading.unified : Reading → Reading
  | .token kind payload => .token kind (payload.unified kind)
  | reading => reading

namespace Munched

variable {p : Piece} {follow : List Glyph}

theorem bytes_unified (h : Munched p follow) (hdecoded : Decoded p.lexeme) :
    p.unified.bytes = unifyNewlines p.bytes := by
  rw [Piece.bytes, ← h.unifyGlyphs_lexeme, spell_unifyGlyphs hdecoded]
  rfl

/-- Neither of the bytes that a string loses is a part of a line ending. -/
theorem stringContent_unified (h : Munched p follow) (hform : p.form = .string)
    (hdecoded : Decoded p.lexeme) :
    stringContent p.unified.bytes = unifyNewlines (stringContent p.bytes) := by
  rw [h.bytes_unified hdecoded]
  cases h with
  | @string g body close _ hg hbody hclose =>
    have hlead : g.lead ≠ carriageReturn := by
      intro hreturn
      have hmem : carriageReturn ∈ g.bytes := hreturn ▸ List.mem_cons_self
      have hsame : g = returnGlyph := hdecoded.eq_of_mem_bytes (by decide) hmem
      rw [hsame] at hg
      exact absurd hg (by decide)
    have hlast : newline ∉ close.bytes := by
      intro hmem
      have hsplit : Decoded (g :: body ++ [close]) := hdecoded
      have hsame : close = newlineGlyph := hsplit.of_append_right.eq_of_mem_bytes (by decide) hmem
      rw [hsame] at hclose
      exact absurd hclose (by decide)
    obtain ⟨front, z, hz⟩ : ∃ front z, close.bytes = front ++ [z] :=
      ⟨_, _, (List.dropLast_concat_getLast (List.cons_ne_nil close.lead close.tail)).symm⟩
    have hbytes : Piece.bytes ⟨.string, g, body ++ [close]⟩ =
        g.lead :: (g.tail ++ spell body ++ front ++ [z]) := by
      simp [Piece.bytes, Piece.lexeme, Glyph.bytes, ← hz]
    have hseam : NoSeam carriageReturn newline (g.tail ++ spell body ++ front) [z] := by
      rintro ⟨-, hnewline⟩
      rw [hz, List.mem_append, not_or] at hlast
      exact hlast.2 (List.mem_singleton.mpr (Option.some.inj hnewline).symm)
    have hunified : unifyNewlines (Piece.bytes ⟨.string, g, body ++ [close]⟩) =
        g.lead :: (unifyNewlines (g.tail ++ spell body ++ front) ++ [z]) := by
      rw [hbytes, unifyNewlines_eq_dropBefore, dropBefore_cons_of_ne hlead, dropBefore_append hseam,
        dropBefore_singleton, unifyNewlines_eq_dropBefore]
    rw [hunified, hbytes, stringContent_cons_concat, stringContent_cons_concat]
  | _ => cases hform

/-- What a piece means does not change, but for the text of a string. -/
theorem reading_unified (h : Munched p follow) (hdecoded : Decoded p.lexeme) :
    p.unified.reading = p.reading.unified := by
  by_cases hform : p.form.spansLines = false
  · rw [h.unified_eq_self hform]
    cases hreading : p.reading with
    | token kind payload =>
      -- strings may span lines, and every other token keeps its payload
      have hkind : kind ≠ .string := by
        rintro rfl
        rcases Piece.reading_eq_token hreading with ⟨s, -, hs, -⟩ | ⟨-, ⟨k, hs, -⟩ | ⟨hs, -⟩⟩ |
          ⟨-, hs, -⟩ | ⟨-, hs, -⟩ | ⟨hstring, -⟩
        · cases hs
        · cases hs
        · cases hs
        · cases hs
        · cases hs
        · rw [hstring] at hform
          cases hform
      rw [Reading.unified, Payload.unified_of_ne hkind]
    | _ => rfl
  · have hsame : p.unified.form = p.form := rfl
    unfold Piece.reading
    rw [hsame]
    cases hp : p.form with
    | string =>
      show Reading.token .string (.text (stringContent p.unified.bytes)) = _
      rw [h.stringContent_unified hp hdecoded]
      rfl
    | openString => rfl
    | lineComment => rfl
    | blockComment => rfl
    | openComment => rfl
    | _ => exact absurd (by rw [hp]; rfl) hform

end Munched

/-! ## What becomes of tokens and errors -/

/-- The place of a span in the unified text. -/
def Span.unified (text : Bytes) (s : Span) : Span :=
  ⟨keptBefore text s.offset, keptBefore text (s.offset + s.length) - keptBefore text s.offset⟩

/-- The token at its place in the unified text; a string has its text unified. -/
def Token.unified (text : Bytes) (t : Token) : Token :=
  ⟨t.kind, t.span.unified text, t.payload.unified t.kind⟩

/-- The error at its place in the unified text. -/
def LexicalError.unified (text : Bytes) (e : LexicalError) : LexicalError :=
  { e with span := e.span.unified text }

/-- Offsets behind a piece that is left out are those in front of it, and offsets behind any other piece
    have moved by what is kept of it. -/
theorem keptBefore_add_width {before : Bytes} {p : Piece} {ps : List Piece} (hcut : Cut (p :: ps) [])
    (hdecoded : Decoded (lexemes (p :: ps))) :
    keptBefore (before ++ textOf (p :: ps)) (before.length + p.width) =
      keptBefore (before ++ textOf (p :: ps)) before.length +
        if p.IsDropped (lexemes ps) then 0 else p.unified.width := by
  have hhere := keptBefore_add_length (before ++ textOf (p :: ps)) before.length
  have hbehind := keptBefore_add_length (before ++ textOf (p :: ps)) (before.length + p.width)
  have hdrop : (before ++ textOf (p :: ps)).drop (before.length + p.width) = textOf ps := by
    rw [List.drop_append, List.drop_eq_nil_of_le (Nat.le_add_right _ _), Nat.add_sub_cancel_left,
      textOf_cons, List.nil_append]
    exact List.drop_left
  have hps : Decoded (lexemes ps) := by
    rw [lexemes_cons] at hdecoded
    exact hdecoded.of_append_right
  rw [List.drop_left, ← textOf_unifiedPieces hcut hdecoded, unifiedPieces] at hhere
  rw [hdrop, ← textOf_unifiedPieces (cut_cons.mp hcut).2 hps] at hbehind
  split at hhere
  · rename_i hdropped
    rw [if_pos hdropped]
    omega
  · rename_i hkept
    rw [if_neg hkept]
    rw [length_textOf_cons] at hhere
    omega

/-- Whatever is picked out of the unified pieces is what is picked out of the pieces of the text, at its
    new place: nothing is picked out of skipped pieces. -/
theorem filterMap_place_unifiedPieces {α : Type} {pick : Placed → Option α} {text : Bytes}
    {convert : α → α}
    (hskip : ∀ placed : Placed, placed.piece.reading = .skipped → pick placed = none)
    (hkeep : ∀ (offset : Nat) (p : Piece), p.unified.reading = p.reading.unified →
      keptBefore text (offset + p.width) = keptBefore text offset + p.unified.width →
        pick ⟨keptBefore text offset, p.unified⟩ = (pick ⟨offset, p⟩).map convert)
    {ps : List Piece} (hcut : Cut ps []) (hdecoded : Decoded (lexemes ps)) {before : Bytes}
    (htext : text = before ++ textOf ps) :
    (place (keptBefore text before.length) (unifiedPieces ps)).filterMap pick =
      ((place before.length ps).filterMap pick).map convert := by
  induction ps generalizing before with
  | nil => rfl
  | cons p ps ih =>
    obtain ⟨hp, hps⟩ := cut_cons.mp hcut
    have hwidth := @keptBefore_add_width before p ps hcut hdecoded
    rw [← htext] at hwidth
    rw [lexemes_cons] at hdecoded
    have hrest := @ih hps hdecoded.of_append_right (before ++ p.bytes)
      (by rw [htext, textOf_cons, List.append_assoc])
    have hoffset : (before ++ p.bytes).length = before.length + p.width := List.length_append
    rw [hoffset] at hrest
    rw [filterMap_place_cons, unifiedPieces]
    by_cases hdrop : p.IsDropped (lexemes ps)
    · have hskipped : p.reading = .skipped :=
        Piece.reading_eq_skipped_iff.mpr (Or.inl (hp.tail_of_return hdrop.1).1)
      rw [if_pos hdrop, Nat.add_zero] at hwidth
      rw [if_pos hdrop, hskip ⟨before.length, p⟩ hskipped, ← hwidth, hrest]
      rfl
    · rw [if_neg hdrop] at hwidth
      have hpick := hkeep before.length p (hp.reading_unified hdecoded.of_append_left) hwidth
      rw [if_neg hdrop, filterMap_place_cons, hpick, ← hwidth, hrest, List.map_append]
      cases pick ⟨before.length, p⟩ <;> rfl

/-- The same for all pieces of a text. -/
theorem filterMap_placedPieces_unified {α : Type} {pick : Placed → Option α} {text : Bytes}
    {convert : α → α}
    (hskip : ∀ placed : Placed, placed.piece.reading = .skipped → pick placed = none)
    (hkeep : ∀ (offset : Nat) (p : Piece), p.unified.reading = p.reading.unified →
      keptBefore text (offset + p.width) = keptBefore text offset + p.unified.width →
        pick ⟨keptBefore text offset, p.unified⟩ = (pick ⟨offset, p⟩).map convert) :
    (place 0 (unifiedPieces (pieces (decode text)))).filterMap pick =
      ((place 0 (pieces (decode text))).filterMap pick).map convert := by
  have htext : text = [] ++ textOf (pieces (decode text)) := (textOf_pieces text).symm
  have hpicked := filterMap_place_unifiedPieces hskip hkeep (cut_pieces (decode text))
    (decoded_lexemes_pieces text) htext
  rwa [List.length_nil, keptBefore_zero] at hpicked

theorem token?_unified {text : Bytes} {offset : Nat} {p : Piece}
    (hreading : p.unified.reading = p.reading.unified)
    (hwidth : keptBefore text (offset + p.width) = keptBefore text offset + p.unified.width) :
    Placed.token? ⟨keptBefore text offset, p.unified⟩ =
      (Placed.token? ⟨offset, p⟩).map (Token.unified text) := by
  have hspan : Span.unified text ⟨offset, p.width⟩ = ⟨keptBefore text offset, p.unified.width⟩ := by
    rw [Span.unified, hwidth, Nat.add_sub_cancel_left]
  unfold Placed.token?
  rw [hreading]
  cases p.reading with
  | token kind payload => exact congrArg (fun span => some (Token.mk kind span _)) hspan.symm
  | _ => rfl

theorem error?_unified {text : Bytes} {offset : Nat} {p : Piece}
    (hreading : p.unified.reading = p.reading.unified)
    (hwidth : keptBefore text (offset + p.width) = keptBefore text offset + p.unified.width) :
    Placed.error? ⟨keptBefore text offset, p.unified⟩ =
      (Placed.error? ⟨offset, p⟩).map (LexicalError.unified text) := by
  have hspan : Span.unified text ⟨offset, p.width⟩ = ⟨keptBefore text offset, p.unified.width⟩ := by
    rw [Span.unified, hwidth, Nat.add_sub_cancel_left]
  unfold Placed.error?
  rw [hreading]
  cases p.reading with
  | faulty fault => exact congrArg (fun span => some (LexicalError.mk fault span)) hspan.symm
  | _ => rfl

theorem tokensAt_unifiedPieces (text : Bytes) :
    tokensAt 0 (unifiedPieces (pieces (decode text))) =
      (tokensAt 0 (pieces (decode text))).map (Token.unified text) := by
  refine filterMap_placedPieces_unified ?_ fun _ _ => token?_unified
  intro placed hskipped
  simp [Placed.token?, hskipped]

theorem errorsAt_unifiedPieces (text : Bytes) :
    errorsAt 0 (unifiedPieces (pieces (decode text))) =
      (errorsAt 0 (pieces (decode text))).map (LexicalError.unified text) := by
  refine filterMap_placedPieces_unified ?_ fun _ _ => error?_unified
  intro placed hskipped
  simp [Placed.error?, hskipped]

/-- The closing token goes from the end of the one text to the end of the other. -/
theorem unified_endToken (text : Bytes) :
    (endToken text.length).unified text = endToken (unifyNewlines text).length := by
  have hspan : Span.unified text ⟨text.length, 0⟩ = ⟨(unifyNewlines text).length, 0⟩ := by
    rw [Span.unified, Nat.add_zero, Nat.sub_self, keptBefore_length]
  rw [Token.unified, endToken, endToken, hspan]
  rfl

/-! ## Scans -/

/-- A token or a faulty piece does not start with a newline, so lines and columns stay. -/
theorem location_of_mem_placedPieces {text : Bytes} {placed : Placed} (h : placed ∈ placedPieces text)
    (hreading : placed.piece.reading ≠ .skipped) :
    let here := Location.ofOffset text placed.offset
    let there := Location.ofOffset (unifyNewlines text) (keptBefore text placed.offset)
    there.line = here.line ∧ there.column = here.column := by
  obtain ⟨before, after, hpieces, hoffset⟩ := mem_place.mp h
  obtain ⟨htext, -⟩ := pieces_decode_split hpieces
  have hseam : NoSeam carriageReturn newline (textOf before) (textOf (placed.piece :: after)) := by
    rintro ⟨-, hnewline⟩
    exact lead_ne_newline h hreading (Option.some.inj hnewline)
  have hlocation := location_unifyNewlines hseam
  rw [Nat.zero_add] at hoffset
  rw [← htext, ← hoffset] at hlocation
  exact hlocation

/-- **A program scans alike with either kind of line ending.** The tokens and the errors of the unified text
    are those of the text, each at its place there; and every one of them, the closing token included,
    starts on the same line and in the same column. -/
theorem scan_unifyNewlines (text : Bytes) :
    (scan (unifyNewlines text)).tokens = (scan text).tokens.map (Token.unified text) ∧
      (scan (unifyNewlines text)).errors = (scan text).errors.map (LexicalError.unified text) ∧
      ∀ span ∈ (scan text).tokens.map Token.span ++ (scan text).errors.map LexicalError.span,
        let here := Location.ofOffset text span.offset
        let there := Location.ofOffset (unifyNewlines text) (keptBefore text span.offset)
        there.line = here.line ∧ there.column = here.column := by
  refine ⟨?_, ?_, ?_⟩
  · rw [tokens_scan, tokens_scan, pieces_decode_unifyNewlines, tokensAt_unifiedPieces, List.map_append,
      ← unified_endToken]
    rfl
  · rw [errors_scan, errors_scan, pieces_decode_unifyNewlines, errorsAt_unifiedPieces]
  · intro span hspan
    rw [List.mem_append, List.mem_map, List.mem_map] at hspan
    rcases hspan with ⟨t, ht, rfl⟩ | ⟨e, he, rfl⟩
    · rw [tokens_scan, List.mem_append, List.mem_singleton] at ht
      rcases ht with ht | rfl
      · obtain ⟨placed, hplaced, htoken⟩ := List.mem_filterMap.mp ht
        obtain ⟨hreading, hspan⟩ := Placed.token?_eq_some.mp htoken
        rw [hspan]
        exact location_of_mem_placedPieces hplaced (by rw [hreading]; exact Reading.noConfusion)
      · -- nothing stands behind the end of the text
        have hseam : NoSeam carriageReturn newline text [] := by
          rintro ⟨-, hnewline⟩
          cases hnewline
        have hlocation := location_unifyNewlines hseam
        rw [List.append_nil] at hlocation
        exact hlocation
    · obtain ⟨placed, hplaced, herror⟩ := List.mem_filterMap.mp he
      obtain ⟨hreading, hspan⟩ := Placed.error?_eq_some.mp herror
      rw [hspan]
      exact location_of_mem_placedPieces hplaced (by rw [hreading]; exact Reading.noConfusion)

end LoxLexer
