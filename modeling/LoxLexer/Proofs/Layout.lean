import LoxLexer.Proofs.Coverage

/-!
# `LoxLexer.Proofs.Layout` — the tokens of a text do not depend on its layout

Take the lexemes of a text, and write them out again with any whitespace and comments between them. The
new text scans without errors and to the same tokens, each where its lexeme now stands. A printer that
keeps the lexemes is therefore free in all else, as long as it puts a blank directly behind each of them.

Three things carry this. A layout is cut into skipped pieces whatever follows it (`Layout.exists_skips`). A
token in front of a blank, or at the end of the text, is munched as it was in the old text (`Munched.swap`).
And ASCII characters keep the lexemes apart, so none of their bytes decode differently.

## Contents
- `plain` — ASCII bytes, each as a character of its own.
- `Layout` — byte strings of whitespace and comments; `StartsBlank`, `Separates` — where a blank is needed.
- `respaced` — tokens moved to where their lexemes stand between given layouts.
- `Rewrites` — pieces that write lexemes anew; `Rewrites.exists_cons` adds one, and `exists_rewrites` goes
  through a text.
- `scan_respaced` — the scan of the new text.
-/

namespace LoxLexer

/-! ## ASCII text as characters -/

/-- Each byte as a character of its own. -/
def plain (text : Bytes) : List Glyph := text.map fun b => ⟨b, []⟩

@[simp] theorem plain_cons (b : UInt8) (rest : Bytes) : plain (b :: rest) = ⟨b, []⟩ :: plain rest := rfl

@[simp] theorem plain_append (left right : Bytes) : plain (left ++ right) = plain left ++ plain right :=
  List.map_append

@[simp] theorem spell_plain (text : Bytes) : spell (plain text) = text := by
  induction text with
  | nil => rfl
  | cons b rest ih => rw [plain_cons, spell_cons, ih]; rfl

/-- ASCII characters can be put in front of any decoded list. -/
theorem decoded_plain_append {text : Bytes} (htext : ∀ b ∈ text, b < 0x80) {glyphs : List Glyph}
    (h : Decoded glyphs) : Decoded (plain text ++ glyphs) := by
  induction text with
  | nil => exact h
  | cons b rest ih =>
    obtain ⟨hb, hrest⟩ := List.forall_mem_cons.mp htext
    exact Decoded.ascii_cons hb (ih hrest)

/-- An ASCII byte is the character with its number. -/
theorem Glyph.is_plain {b : UInt8} (hb : b < 0x80) (c : Char) :
    (⟨b, []⟩ : Glyph).is c = true ↔ b.toNat = c.toNat := by
  rw [Glyph.is_iff]
  simp [Glyph.code, hb]

/-- Characters of a text without a given ASCII byte. -/
theorem is_plain_of_ne {text : Bytes} {c : Char}
    (htext : ∀ b ∈ text, b < 0x80 ∧ b.toNat ≠ c.toNat) : ∀ g ∈ plain text, g.is c = false := by
  intro g hg
  obtain ⟨b, hb, rfl⟩ := List.mem_map.mp hg
  obtain ⟨hascii, hne⟩ := htext b hb
  rw [← Bool.not_eq_true, Glyph.is_plain hascii]
  exact hne

/-! ## Layouts -/

/-- Whitespace bytes and complete comments, whose text is ASCII. -/
inductive Layout : Bytes → Prop where
  | nil : Layout []
  | blank {b rest} (hb : b ∈ ascii " \t\r\n") (hrest : Layout rest) : Layout (b :: rest)
  | lineComment {body rest} (hascii : ∀ b ∈ body, b < 0x80) (hbody : newline ∉ body)
      (hrest : Layout rest) : Layout (ascii "//" ++ body ++ [newline] ++ rest)
  | blockComment {body rest} (hascii : ∀ b ∈ body, b < 0x80) (hbody : ¬ ascii "*/" <:+: body)
      (hrest : Layout rest) : Layout (ascii "/*" ++ body ++ ascii "*/" ++ rest)

/-- The text starts with a whitespace byte. -/
def StartsBlank (text : Bytes) : Prop := ∃ b ∈ text.head?, b ∈ ascii " \t\r\n"

/-- Layouts to put behind lexemes: each starts with a blank, except that the last may be empty. -/
structure Separates (layouts : List Bytes) : Prop where
  layout : ∀ w ∈ layouts, Layout w
  inner : ∀ w ∈ layouts.dropLast, StartsBlank w
  last : ∀ w ∈ layouts.getLast?, w = [] ∨ StartsBlank w

theorem mem_blanks {b : UInt8} (h : b ∈ ascii " \t\r\n") : b < 0x80 ∧ (⟨b, []⟩ : Glyph).isBlank = true := by
  have hblanks : ascii " \t\r\n" = [0x20, 0x09, 0x0D, 0x0A] := rfl
  rw [hblanks] at h
  simp only [List.mem_cons, List.not_mem_nil, or_false] at h
  rcases h with rfl | rfl | rfl | rfl <;> decide

theorem Layout.ascii_bytes {w : Bytes} (h : Layout w) : ∀ b ∈ w, b < 0x80 := by
  induction h with
  | nil => simp
  | blank hb _ ih => exact List.forall_mem_cons.mpr ⟨(mem_blanks hb).1, ih⟩
  | @lineComment body rest hascii _ _ ih =>
    have hopen : ∀ b ∈ ascii "//", b < 0x80 := by simp [ascii]
    have hclose : ∀ b ∈ [newline], b < 0x80 := by simp [newline]
    simp only [List.forall_mem_append]
    exact ⟨⟨⟨hopen, hascii⟩, hclose⟩, ih⟩
  | @blockComment body rest hascii _ _ ih =>
    have hopen : ∀ b ∈ ascii "/*", b < 0x80 := by simp [ascii]
    have hclose : ∀ b ∈ ascii "*/", b < 0x80 := by simp [ascii]
    simp only [List.forall_mem_append]
    exact ⟨⟨⟨hopen, hascii⟩, hclose⟩, ih⟩

/-- A text without `*/` has none with a star behind it either. -/
theorem noClose_plain {body : Bytes} (hascii : ∀ b ∈ body, b < 0x80) (hbody : ¬ ascii "*/" <:+: body) :
    NoClose (plain (body ++ ascii "*")) := by
  induction body with
  | nil => exact .singleton _
  | cons b body ih =>
    obtain ⟨hb, hascii⟩ := List.forall_mem_cons.mp hascii
    have hrest : ¬ ascii "*/" <:+: body := fun h => hbody (h.trans (List.suffix_cons b body).isInfix)
    rw [List.cons_append, plain_cons, NoClose, List.isChain_cons]
    refine ⟨?_, ih hascii hrest⟩
    intro second hsecond
    rw [Bool.and_eq_false_imp]
    intro hstar
    rw [← Bool.not_eq_true]
    intro hslash
    -- the byte behind the star is the next of the body: the star that is put behind it is no slash
    cases body with
    | nil =>
      cases hsecond
      revert hslash
      decide
    | cons x body =>
      cases hsecond
      apply hbody
      have hx : x < 0x80 := hascii x (List.mem_cons_self ..)
      have hb42 : b = 42 := UInt8.toNat_inj.mp ((Glyph.is_plain hb '*').mp hstar)
      have hx47 : x = 47 := UInt8.toNat_inj.mp ((Glyph.is_plain hx '/').mp hslash)
      subst hb42 hx47
      exact List.IsPrefix.isInfix ⟨body, rfl⟩

/-! ## A layout is skipped -/

/-- The pieces are the layout, they are cut from it whatever follows, and a scan skips them all. -/
structure Skips (w : Bytes) (ps : List Piece) : Prop where
  lexemes_eq : lexemes ps = plain w
  cut : ∀ follow, Cut ps follow
  skipped : ∀ p ∈ ps, p.reading = .skipped

namespace Skips

variable {w : Bytes} {ps : List Piece}

theorem textOf_eq (h : Skips w ps) : textOf ps = w := by
  rw [textOf, h.lexemes_eq, spell_plain]

theorem tokensAt_eq (h : Skips w ps) (offset : Nat) : tokensAt offset ps = [] := by
  apply tokensAt_eq_nil
  intro p hp
  simp [Piece.isToken, h.skipped p hp]

theorem errorsAt_eq (h : Skips w ps) (offset : Nat) : errorsAt offset ps = [] := by
  apply errorsAt_eq_nil
  intro p hp fault
  simp [h.skipped p hp]

/-- One more skipped piece in front, which no text behind it changes. -/
theorem cons (h : Skips w ps) (p : Piece) {front : Bytes} (hlexeme : p.lexeme = plain front)
    (hmunched : ∀ follow, Munched p follow) (hskipped : p.reading = .skipped) :
    Skips (front ++ w) (p :: ps) where
  lexemes_eq := by rw [lexemes_cons, hlexeme, h.lexemes_eq, plain_append]
  cut := fun follow => .cons (hmunched _) (h.cut follow)
  skipped := List.forall_mem_cons.mpr ⟨hskipped, h.skipped⟩

end Skips

/-- **A layout is skipped**, whatever follows it: each of its parts is a piece. -/
theorem Layout.exists_skips {w : Bytes} (h : Layout w) : ∃ ps, Skips w ps := by
  induction h with
  | nil => exact ⟨[], rfl, fun _ => .nil, by simp⟩
  | @blank b rest hb _ ih =>
    obtain ⟨ps, hps⟩ := ih
    have hlexeme : [⟨b, []⟩] = plain [b] := rfl
    exact ⟨_, hps.cons ⟨.blank, ⟨b, []⟩, []⟩ hlexeme (fun _ => .blank (mem_blanks hb).2) rfl⟩
  | @lineComment body rest hascii hbody _ ih =>
    obtain ⟨ps, hps⟩ := ih
    have hline : ∀ g ∈ plain body, g.is '\n' = false := by
      apply is_plain_of_ne
      intro b hb
      refine ⟨hascii b hb, ?_⟩
      intro h
      have hnewline : b = newline := UInt8.toNat_inj.mp h
      exact hbody (hnewline ▸ hb)
    let comment : Piece := ⟨.lineComment, ⟨0x2F, []⟩, ⟨0x2F, []⟩ :: (plain body ++ [⟨newline, []⟩])⟩
    have hlexeme : comment.lexeme = plain (ascii "//" ++ body ++ [newline]) := by
      rw [plain_append, plain_append]
      rfl
    refine ⟨_, hps.cons comment hlexeme ?_ rfl⟩
    intro follow
    exact .lineComment (by decide) (by decide) hline (by decide)
  | @blockComment body rest hascii hbody _ ih =>
    obtain ⟨ps, hps⟩ := ih
    have hclose := noClose_plain hascii hbody
    rw [plain_append] at hclose
    let comment : Piece :=
      ⟨.blockComment, ⟨0x2F, []⟩, ⟨0x2A, []⟩ :: (plain body ++ [⟨0x2A, []⟩, ⟨0x2F, []⟩])⟩
    have hlexeme : comment.lexeme = plain (ascii "/*" ++ body ++ ascii "*/") := by
      rw [plain_append, plain_append]
      rfl
    refine ⟨_, hps.cons comment hlexeme ?_ rfl⟩
    intro follow
    exact .blockComment (by decide) (by decide) hclose (by decide) (by decide)

/-! ## Lexemes between layouts -/

/-- The tokens moved to where their lexemes stand when they are written from an offset on, each with the
    next of the layouts behind it. -/
def respaced : Nat → List Token → List Bytes → List Token
  | offset, t :: tokens, w :: layouts =>
    { t with span := ⟨offset, t.span.length⟩ } ::
      respaced (offset + t.span.length + w.length) tokens layouts
  | _, _, _ => []

/-- The lexemes of tokens of a text, each with the next of the layouts behind it. -/
def written (text : Bytes) (tokens : List Token) (layouts : List Bytes) : Bytes :=
  (List.zipWith (fun t w => t.span.slice text ++ w) tokens layouts).flatten

theorem Separates.tail {w : Bytes} {layouts : List Bytes} (h : Separates (w :: layouts)) :
    Separates layouts where
  layout := fun v hv => h.layout v (List.mem_cons_of_mem w hv)
  inner := by
    intro v hv
    cases layouts with
    | nil => cases hv
    | cons x layouts => exact h.inner v (List.mem_cons_of_mem w hv)
  last := by
    intro v hv
    apply h.last v
    rw [List.getLast?_cons, Option.mem_def.mp hv]
    rfl

/-- Only the last layout can be empty, with nothing behind it. -/
theorem Separates.head {w : Bytes} {layouts : List Bytes} (h : Separates (w :: layouts)) :
    StartsBlank w ∨ (w = [] ∧ layouts = []) := by
  cases layouts with
  | nil =>
    rcases h.last w rfl with hnil | hblank
    · exact Or.inr ⟨hnil, rfl⟩
    · exact Or.inl hblank
  | cons x layouts => exact Or.inl (h.inner w (List.mem_cons_self ..))

theorem StartsBlank.exists_plain {w : Bytes} (h : StartsBlank w) :
    ∃ b rest, w = b :: rest ∧ plain w = ⟨b, []⟩ :: plain rest ∧ b ∈ ascii " \t\r\n" := by
  obtain ⟨b, hb, hblank⟩ := h
  obtain ⟨rest, rfl⟩ := List.head?_eq_some_iff.mp (Option.mem_def.mp hb)
  exact ⟨b, rest, rfl, rfl, hblank⟩

/-- A token stays what it is in front of a blank, and at the end of a text. -/
theorem Munched.before_layout {p : Piece} {follow : List Glyph} (h : Munched p follow)
    (htoken : p.isToken = true) {w : Bytes} {rest : List Glyph}
    (hw : StartsBlank w ∨ (w = [] ∧ rest = [])) : Munched p (plain w ++ rest) := by
  have hclosed : p.isUnclosed = true → follow = [] → plain w ++ rest = [] := by
    intro hopen
    rw [Piece.isUnclosed_of_isToken htoken] at hopen
    cases hopen
  rcases hw with hblank | ⟨rfl, rfl⟩
  · obtain ⟨b, more, rfl, hplain, hb⟩ := hblank.exists_plain
    exact h.swap (.blank (mem_blanks hb).2 follow _) hclosed
  · exact h.swap (.nil follow) hclosed

/-- No sequence runs from a lexeme into the layout behind it. -/
theorem Decoded.append_layout {lexeme rest : List Glyph} (hlexeme : Decoded lexeme) (hrest : Decoded rest)
    {w : Bytes} (hlayout : Layout w) (hw : StartsBlank w ∨ (w = [] ∧ rest = [])) :
    Decoded (lexeme ++ (plain w ++ rest)) := by
  refine hlexeme.append (decoded_plain_append hlayout.ascii_bytes hrest) ?_
  rcases hw with hblank | ⟨rfl, rfl⟩
  · obtain ⟨b, more, rfl, -, hb⟩ := hblank.exists_plain
    rw [spell_append, spell_plain]
    refine startsAfresh_cons (Bool.eq_false_iff.mpr ?_)
    intro htrailing
    simp only [isTrailing, Bool.and_eq_true, decide_eq_true_eq] at htrailing
    exact UInt8.not_le.mpr (mem_blanks hb).1 htrailing.1
  · exact startsAfresh_nil

/-- **The pieces write lexemes of a text anew**, each with its layout behind it: the tokens among them are
    those of the lexemes, where these now stand, and nothing else in them is more than skipped. -/
structure Rewrites (text : Bytes) (tokens : List Token) (layouts : List Bytes) (qs : List Piece) :
    Prop where
  textOf_eq : textOf qs = written text tokens layouts
  nil : layouts = [] → qs = []
  cut : Cut qs []
  decoded : Decoded (lexemes qs)
  tokensAt_eq : ∀ offset, tokensAt offset qs = respaced offset tokens layouts
  errorsAt_eq : ∀ offset, errorsAt offset qs = []

theorem rewrites_nil (text : Bytes) : Rewrites text [] [] [] where
  textOf_eq := rfl
  nil _ := rfl
  cut := .nil
  decoded := decoded_nil
  tokensAt_eq _ := rfl
  errorsAt_eq _ := rfl

/-- One more lexeme in front: the piece of its token, and the pieces that its layout is cut into. -/
theorem Rewrites.exists_cons {text w : Bytes} {tokens : List Token} {layouts : List Bytes}
    {qs : List Piece} (h : Rewrites text tokens layouts qs) {p : Piece} {follow : List Glyph}
    {offset : Nat} {t : Token} (hp : Munched p follow) (hdecoded : Decoded p.lexeme)
    (ht : Placed.token? ⟨offset, p⟩ = some t) (hslice : t.span.slice text = p.bytes)
    (hlayout : Layout w) (hhead : StartsBlank w ∨ (w = [] ∧ layouts = [])) :
    ∃ qs', Rewrites text (t :: tokens) (w :: layouts) qs' := by
  obtain ⟨hreading, hspan⟩ := Placed.token?_eq_some.mp ht
  have htoken : p.isToken = true := Piece.isToken_iff.mpr ⟨t.kind, t.payload, hreading⟩
  have hwidth : t.span.length = p.width := by rw [hspan]; rfl
  obtain ⟨gap, hgap⟩ := hlayout.exists_skips
  have hw : StartsBlank w ∨ (w = [] ∧ lexemes qs = []) :=
    hhead.imp_right fun hnil => ⟨hnil.1, by rw [h.nil hnil.2]; rfl⟩
  refine ⟨p :: (gap ++ qs), ?_, ?_, ?_, ?_, ?_, ?_⟩
  · rw [textOf_cons, textOf_append, hgap.textOf_eq, h.textOf_eq, written, written,
      List.zipWith_cons_cons, List.flatten_cons, hslice, List.append_assoc]
  · intro hnil
    cases hnil
  · refine .cons ?_ (cut_append.mpr ⟨hgap.cut _, h.cut⟩)
    rw [lexemes_append, hgap.lexemes_eq, List.append_nil]
    exact hp.before_layout htoken hw
  · rw [lexemes_cons, lexemes_append, hgap.lexemes_eq]
    exact hdecoded.append_layout h.decoded hlayout hw
  · intro start
    rw [tokensAt_cons, token?_moved offset, ht, tokensAt_append, hgap.tokensAt_eq, hgap.textOf_eq,
      h.tokensAt_eq, respaced, hwidth, Option.map_some, hwidth, Option.toList_some,
      List.singleton_append, List.nil_append]
  · intro start
    rw [errorsAt_cons, error?_of_isToken htoken, errorsAt_append, hgap.errorsAt_eq, h.errorsAt_eq]
    rfl

/-- **Lexemes with layouts behind them** are cut into the tokens that they were and into skipped pieces.
    `before` is the part of the old text in front of the pieces. -/
theorem exists_rewrites {ps : List Piece} (hcut : Cut ps []) (hdecoded : Decoded (lexemes ps))
    (before : Bytes) {layouts : List Bytes} (hsep : Separates layouts)
    (hlength : layouts.length = (tokensAt before.length ps).length) :
    ∃ qs, Rewrites (before ++ textOf ps) (tokensAt before.length ps) layouts qs := by
  induction ps generalizing before layouts with
  | nil =>
    obtain rfl : layouts = [] := List.length_eq_zero_iff.mp hlength
    exact ⟨[], rewrites_nil _⟩
  | cons p ps ih =>
    obtain ⟨hp, hps⟩ := cut_cons.mp hcut
    rw [lexemes_cons] at hdecoded
    have hrest := @ih hps hdecoded.of_append_right (before ++ p.bytes)
    have htext : before ++ p.bytes ++ textOf ps = before ++ textOf (p :: ps) := by
      rw [textOf_cons, List.append_assoc]
    have hoffset : (before ++ p.bytes).length = before.length + p.width := List.length_append
    rw [htext, hoffset] at hrest
    by_cases htoken : p.isToken = true
    · obtain ⟨t, ht, hspan⟩ := exists_token_of_isToken before.length htoken
      have htokens : tokensAt before.length (p :: ps) = t :: tokensAt (before.length + p.width) ps := by
        rw [tokensAt_cons, ht]
        rfl
      have hslice : t.span.slice (before ++ textOf (p :: ps)) = p.bytes := by
        rw [hspan, Span.slice, List.drop_left, textOf_cons]
        exact List.take_left
      rw [htokens] at hlength ⊢
      cases layouts with
      | nil => cases hlength
      | cons w layouts =>
        obtain ⟨qs, hqs⟩ := hrest hsep.tail (Nat.succ.inj hlength)
        have hlayout := hsep.layout w (List.mem_cons_self ..)
        exact hqs.exists_cons hp hdecoded.of_append_left ht hslice hlayout hsep.head
    · have htokens : tokensAt before.length (p :: ps) = tokensAt (before.length + p.width) ps := by
        rw [tokensAt_cons, token?_of_not_isToken htoken]
        rfl
      rw [htokens] at hlength ⊢
      exact hrest hsep hlength

/-- What is written has each lexeme at the place that its token is moved to. -/
theorem slice_respaced {source : Bytes} {tokens : List Token}
    (hinside : ∀ t ∈ tokens, (t.span.slice source).length = t.span.length) (front : Bytes)
    {layouts : List Bytes} (hlength : layouts.length = tokens.length) :
    (respaced front.length tokens layouts).map (·.span.slice (front ++ written source tokens layouts)) =
      tokens.map (·.span.slice source) := by
  induction tokens generalizing front layouts with
  | nil => rfl
  | cons t tokens ih =>
    obtain ⟨ht, hinside⟩ := List.forall_mem_cons.mp hinside
    cases layouts with
    | nil => cases hlength
    | cons w layouts =>
      have hrest := ih hinside (front ++ (t.span.slice source ++ w)) (Nat.succ.inj hlength)
      rw [List.length_append, List.length_append, ht, ← Nat.add_assoc] at hrest
      have hwritten : front ++ (t.span.slice source ++ w) ++ written source tokens layouts =
          front ++ written source (t :: tokens) (w :: layouts) := by
        rw [written, written, List.zipWith_cons_cons, List.flatten_cons, List.append_assoc]
      rw [hwritten] at hrest
      have hslice : Span.slice ⟨front.length, t.span.length⟩
          (front ++ written source (t :: tokens) (w :: layouts)) = t.span.slice source := by
        rw [Span.slice, List.drop_left, written, List.zipWith_cons_cons, List.flatten_cons,
          List.append_assoc, ← ht]
        exact List.take_left
      rw [respaced, List.map_cons, List.map_cons, hrest, hslice]

/-- **Layout carries no meaning.** The lexemes of a text, written again with a layout in front of the first
    and one behind each, scan without errors and to the tokens that they were: of the same kinds, with
    the same payloads, each where its lexeme now stands. -/
theorem scan_respaced {source front : Bytes} {layouts : List Bytes} (hfront : Layout front)
    (hsep : Separates layouts) (hlength : layouts.length = (scan source).properTokens.length) :
    let text := front ++ written source (scan source).properTokens layouts
    (scan text).status = .ok ∧
      (scan text).properTokens = respaced front.length (scan source).properTokens layouts ∧
      (scan text).properTokens.map (·.span.slice text) =
        (scan source).properTokens.map (·.span.slice source) := by
  intro text
  have hlength' : layouts.length = (tokensAt 0 (pieces (decode source))).length := by
    rw [hlength, properTokens_scan]
  obtain ⟨qs, hqs⟩ :=
    exists_rewrites (cut_pieces (decode source)) (decoded_lexemes_pieces source) [] hsep hlength'
  obtain ⟨gap, hgap⟩ := hfront.exists_skips
  have htext : textOf (gap ++ qs) = text := by
    rw [textOf_append, hgap.textOf_eq, hqs.textOf_eq, List.nil_append, textOf_pieces, List.length_nil,
      ← properTokens_scan]
  have hpieces : pieces (decode text) = gap ++ qs := by
    rw [← htext]
    refine pieces_decode_textOf (cut_append.mpr ⟨hgap.cut _, hqs.cut⟩) ?_
    rw [lexemes_append, hgap.lexemes_eq]
    exact decoded_plain_append hfront.ascii_bytes hqs.decoded
  have htokens : (scan text).properTokens =
      respaced front.length (scan source).properTokens layouts := by
    rw [properTokens_scan, properTokens_scan, hpieces, tokensAt_append, hgap.tokensAt_eq,
      hqs.tokensAt_eq, hgap.textOf_eq, Nat.zero_add, List.nil_append, List.length_nil]
  refine ⟨?_, htokens, ?_⟩
  · rw [Scan.status, errors_scan, hpieces, errorsAt_append, hgap.errorsAt_eq, hqs.errorsAt_eq]
    rfl
  · rw [htokens]
    exact slice_respaced (fun t => length_slice_of_mem_properTokens) front hlength

/-- A word, a stray character and a string with a broken sequence and a newline in it. The comment in front
    of the word reads like an opener within a comment, and the one behind it ends in two stars. -/
theorem scan_respaced_nestedOpener :
    let source : Bytes := [0x61, 0x40, 0x22, 0xe2, 0x0a, 0x22]
    let front := ascii "/*" ++ ascii "/" ++ ascii "*/" ++ []
    let layouts := [0x20 :: (ascii "/*" ++ ascii "*" ++ ascii "*/" ++ []), []]
    let text := front ++ written source (scan source).properTokens layouts
    Layout front ∧ Separates layouts ∧ layouts.length = (scan source).properTokens.length ∧
      (scan text).status = .ok ∧
      (scan text).properTokens = respaced front.length (scan source).properTokens layouts ∧
      (scan text).properTokens.map (·.span.slice text) =
        (scan source).properTokens.map (·.span.slice source) := by
  intro source front layouts text
  have htokens : (scan source).properTokens =
      [⟨.identifier, ⟨0, 1⟩, .text [0x61]⟩, ⟨.string, ⟨2, 4⟩, .text [0xe2, 0x0a]⟩] := by
    decide +kernel
  have hcomment : ∀ b : UInt8, b < 0x80 → Layout (ascii "/*" ++ [b] ++ ascii "*/" ++ []) := by
    intro b hb
    refine .blockComment (by simpa using hb) ?_ .nil
    intro h
    exact absurd h.length_le (by simp [ascii])
  have hfront : Layout front := hcomment 0x2F (by decide)
  have hblank : (0x20 : UInt8) ∈ ascii " \t\r\n" := by simp [ascii]
  have hsep : Separates layouts := by
    constructor
    · intro w hw
      rcases List.mem_cons.mp hw with rfl | hw
      · exact .blank hblank (hcomment 0x2A (by decide))
      · rw [List.mem_singleton.mp hw]
        exact .nil
    · intro w hw
      rw [List.mem_singleton.mp hw]
      exact ⟨0x20, rfl, hblank⟩
    · intro w hw
      cases hw
      exact Or.inl rfl
  have hlength : layouts.length = (scan source).properTokens.length := by
    rw [htokens]
    rfl
  exact ⟨hfront, hsep, hlength, scan_respaced hfront hsep hlength⟩

end LoxLexer
