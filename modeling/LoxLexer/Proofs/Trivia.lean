import LoxLexer.Proofs.Cutting
import LoxLexer.Proofs.Reading

/-!
# `LoxLexer.Proofs.Trivia` — whitespace and comments, and a text without them

Two descriptions of what a scan leaves out, neither of which mentions pieces.

`Trivia` is a grammar: a text that consists of blanks and complete comments only. `strip` is a function:
it goes through a text character by character, with one character in view, and leaves out the blanks and
the comments, while a string is copied with all that is in it.

## Contents
- `Trivia` — the grammar. `Munched.trivia` says that every skipped piece follows it.
- `Region`, `strip` — the text without whitespace and comments. `strip_skipped` and `strip_token` are the
  steps for one piece, with a lemma for each group of tokens (`strip_word` … `strip_pair`), and `strip_lexemes`
  says that without faulty pieces exactly the tokens are left.
-/

namespace LoxLexer

/-! ## The grammar of trivia -/

/-- Blanks and complete comments. A line comment is complete with its newline, or without one at the end of
    the whole text, if that is where the trivia end; a block comment ends at the first `*/` after its
    opener. -/
inductive Trivia (atEnd : Prop) : List Glyph → Prop where
  | nil : Trivia atEnd []
  | blank {g rest} (hg : g.isBlank = true) (hrest : Trivia atEnd rest) : Trivia atEnd (g :: rest)
  | lineComment {first second body close rest} (hfirst : first.is '/' = true)
      (hsecond : second.is '/' = true) (hbody : ∀ x ∈ body, x.is '\n' = false)
      (hclose : close.is '\n' = true) (hrest : Trivia atEnd rest) :
      Trivia atEnd (first :: second :: (body ++ close :: rest))
  | lastComment {first second body} (hend : atEnd) (hfirst : first.is '/' = true)
      (hsecond : second.is '/' = true) (hbody : ∀ x ∈ body, x.is '\n' = false) :
      Trivia atEnd (first :: second :: body)
  | blockComment {first second body star slash rest} (hfirst : first.is '/' = true)
      (hsecond : second.is '*' = true) (hbody : NoClose (body ++ [star])) (hstar : star.is '*' = true)
      (hslash : slash.is '/' = true) (hrest : Trivia atEnd rest) :
      Trivia atEnd (first :: second :: (body ++ star :: slash :: rest))

/-- Trivia that do not end the text can be continued. -/
theorem Trivia.append {atEnd : Prop} {left right : List Glyph} (hleft : Trivia False left)
    (hright : Trivia atEnd right) : Trivia atEnd (left ++ right) := by
  induction hleft with
  | nil => exact hright
  | blank hg _ ih => exact .blank hg ih
  | lineComment hfirst hsecond hbody hclose _ ih =>
    simp only [List.cons_append, List.append_assoc]
    exact .lineComment hfirst hsecond hbody hclose ih
  | lastComment hend => exact hend.elim
  | blockComment hfirst hsecond hbody hstar hslash _ ih =>
    simp only [List.cons_append, List.append_assoc]
    exact .blockComment hfirst hsecond hbody hstar hslash ih

/-- A skipped piece is trivia; only an unclosed one needs the end of the text. -/
theorem Munched.trivia {p : Piece} {follow : List Glyph} (h : Munched p follow)
    (hskipped : p.reading = .skipped) : Trivia (p.isUnclosed = true) p.lexeme := by
  have hform := Piece.reading_eq_skipped_iff.mp hskipped
  cases h with
  | blank hg => exact .blank hg .nil
  | lineComment hg hsecond hbody hclose => exact .lineComment hg hsecond hbody hclose .nil
  | @lastComment g second body hg hsecond hbody =>
    have hline : second.is '\n' = false := Glyph.is_of_is hsecond (by decide)
    exact .lastComment (by simpa [Piece.isUnclosed, hline] using hbody) hg hsecond hbody
  | blockComment hg hsecond hbody hstar hslash => exact .blockComment hg hsecond hbody hstar hslash .nil
  | _ => simp at hform

/-! ## A text without its trivia -/

/-- What the next character belongs to. -/
inductive Region where
  | code
  | line
  /-- At the star that opens a block comment. -/
  | opener
  | block
  /-- At the slash that closes a block comment. -/
  | closer
  | quoted
deriving DecidableEq, Repr

/-- The text starts with the given character. -/
def nextIs (c : Char) : List Glyph → Bool
  | [] => false
  | g :: _ => g.is c

/-- The characters of a text that belong neither to whitespace nor to a comment. -/
def strip : Region → List Glyph → List Glyph
  | _, [] => []
  | .code, g :: rest =>
    if g.isBlank then strip .code rest
    else if g.is '"' then g :: strip .quoted rest
    else if g.is '/' && nextIs '/' rest then strip .line rest
    else if g.is '/' && nextIs '*' rest then strip .opener rest
    else g :: strip .code rest
  | .line, g :: rest => if g.is '\n' then strip .code rest else strip .line rest
  | .opener, _ :: rest => strip .block rest
  | .block, g :: rest => if g.is '*' && nextIs '/' rest then strip .closer rest else strip .block rest
  | .closer, _ :: rest => strip .code rest
  | .quoted, g :: rest => if g.is '"' then g :: strip .code rest else g :: strip .quoted rest

/-- The character opens neither whitespace nor a comment nor a string. -/
def Glyph.IsPlain (g : Glyph) : Prop := g.isBlank = false ∧ g.is '"' = false ∧ g.is '/' = false

theorem strip_plain {body : List Glyph} (hbody : ∀ x ∈ body, x.IsPlain) (rest : List Glyph) :
    strip .code (body ++ rest) = body ++ strip .code rest := by
  induction body with
  | nil => rfl
  | cons g body ih =>
    obtain ⟨⟨hblank, hquote, hslash⟩, hbody⟩ := List.forall_mem_cons.mp hbody
    rw [List.cons_append, strip, ih hbody]
    simp [hblank, hquote, hslash]

/-- A line comment is left out through its newline. -/
theorem strip_line {body : List Glyph} (hbody : ∀ x ∈ body, x.is '\n' = false) {close : Glyph}
    (hclose : close.is '\n' = true) (rest : List Glyph) :
    strip .line (body ++ close :: rest) = strip .code rest := by
  induction body with
  | nil => rw [List.nil_append, strip, if_pos hclose]
  | cons g body ih =>
    obtain ⟨hg, hbody⟩ := List.forall_mem_cons.mp hbody
    rw [List.cons_append, strip, hg, if_neg Bool.false_ne_true]
    exact ih hbody

theorem strip_lastLine {body : List Glyph} (hbody : ∀ x ∈ body, x.is '\n' = false) :
    strip .line body = [] := by
  induction body with
  | nil => rfl
  | cons g body ih =>
    obtain ⟨hg, hbody⟩ := List.forall_mem_cons.mp hbody
    rw [strip, hg, if_neg Bool.false_ne_true]
    exact ih hbody

/-- A block comment is left out through its first `*/`. -/
theorem strip_block {body : List Glyph} {star slash : Glyph} (hbody : NoClose (body ++ [star]))
    (hstar : star.is '*' = true) (hslash : slash.is '/' = true) (rest : List Glyph) :
    strip .block (body ++ star :: slash :: rest) = strip .code rest := by
  induction body with
  | nil =>
    have hnext : (star.is '*' && nextIs '/' (slash :: rest)) = true := by simp [nextIs, hstar, hslash]
    rw [List.nil_append, strip, if_pos hnext, strip]
  | cons g body ih =>
    -- the character behind `g` is the next of the body, or the star that closes the comment
    have hnext : (g.is '*' && nextIs '/' (body ++ star :: slash :: rest)) = false := by
      cases body with
      | nil => exact (List.isChain_cons_cons.mp hbody).1
      | cons x body => exact (List.isChain_cons_cons.mp hbody).1
    rw [List.cons_append, strip, hnext, if_neg Bool.false_ne_true]
    exact ih hbody.tail

/-- A string is copied through its closing quote. -/
theorem strip_quoted {body : List Glyph} (hbody : ∀ x ∈ body, x.is '"' = false) {close : Glyph}
    (hclose : close.is '"' = true) (rest : List Glyph) :
    strip .quoted (body ++ close :: rest) = body ++ close :: strip .code rest := by
  induction body with
  | nil => rw [List.nil_append, strip, if_pos hclose, List.nil_append]
  | cons g body ih =>
    obtain ⟨hg, hbody⟩ := List.forall_mem_cons.mp hbody
    rw [List.cons_append, strip, hg, if_neg Bool.false_ne_true, ih hbody, List.cons_append]

/-! ## One piece at a time -/

namespace Glyph

theorem isPlain_of_isWordPart {g : Glyph} (h : g.isWordPart = true) : g.IsPlain := by
  refine ⟨?_, is_of_isWordPart h (by decide), is_of_isWordPart h (by decide)⟩
  rw [Bool.eq_false_iff]
  intro hblank
  rw [isWordPart_of_isBlank hblank] at h
  cases h

theorem isPlain_of_isDigit {g : Glyph} (h : g.isDigit = true) : g.IsPlain :=
  isPlain_of_isWordPart (isWordPart_iff.mpr (Or.inr h))

theorem isPlain_of_symbol {s : Symbol} {g : Glyph} {codes : List CodePoint}
    (h : s.codes = g.code :: codes) (hslash : g.is '/' = false) : g.IsPlain := by
  obtain ⟨hblank, -, -, hquote⟩ := Symbol.head_class h
  exact ⟨hblank, hquote, hslash⟩

theorem isPlain_of_point {g : Glyph} (h : g.is '.' = true) : g.IsPlain := by
  have hcodes : Symbol.dot.codes = [g.code] := by
    rw [is_iff.mp h]
    rfl
  exact isPlain_of_symbol hcodes (is_of_is h (by decide))

/-- Both characters of a symbol of two are plain: only the slash by itself starts with a slash. -/
theorem isPlain_of_pair {s : Symbol} {g second : Glyph} (h : s.codes = [g.code, second.code]) :
    g.IsPlain ∧ second.IsPlain := by
  obtain ⟨hequals, hslash⟩ := Symbol.pair_codes h
  have hfirst : g.is '/' = false := by
    rw [Bool.eq_false_iff, Ne, is_iff]
    exact hslash
  have hcodes : Symbol.equal.codes = [second.code] := by
    rw [hequals]
    rfl
  have hsecond : second.is '/' = false := is_of_is (c := '=') (is_iff.mpr hequals) (by decide)
  exact ⟨isPlain_of_symbol h hfirst, isPlain_of_symbol hcodes hsecond⟩

end Glyph

/-- The slash opens a comment and nothing else. -/
theorem strip_slash {g : Glyph} (hg : g.is '/' = true) (rest : List Glyph) :
    strip .code (g :: rest) =
      if nextIs '/' rest then strip .line rest
      else if nextIs '*' rest then strip .opener rest
      else g :: strip .code rest := by
  obtain ⟨hblank, -⟩ := Glyph.no_class_of_code (Glyph.is_iff.mp hg) (by decide)
  have hquote : g.is '"' = false := Glyph.is_of_is hg (by decide)
  rw [strip, if_neg hblank, hquote, if_neg Bool.false_ne_true, hg, Bool.true_and, Bool.true_and]

/-- Skipped pieces are left out. -/
theorem strip_skipped {p : Piece} {follow : List Glyph} (h : Munched p follow)
    (hskipped : p.reading = .skipped) : strip .code (p.lexeme ++ follow) = strip .code follow := by
  have hform := Piece.reading_eq_skipped_iff.mp hskipped
  cases h with
  | @blank g _ hg =>
    show strip .code (g :: follow) = strip .code follow
    rw [strip, if_pos hg]
  | @lineComment g second body close _ hg hsecond hbody hclose =>
    have hline : second.is '\n' = false := Glyph.is_of_is hsecond (by decide)
    show strip .code (g :: second :: (body ++ [close] ++ follow)) = strip .code follow
    rw [List.append_assoc, List.singleton_append, strip_slash hg, nextIs, if_pos hsecond, strip, hline,
      if_neg Bool.false_ne_true, strip_line hbody hclose]
  | @lastComment g second body hg hsecond hbody =>
    have hline : second.is '\n' = false := Glyph.is_of_is hsecond (by decide)
    show strip .code (g :: second :: body ++ []) = []
    rw [List.append_nil, strip_slash hg, nextIs, if_pos hsecond, strip, hline,
      if_neg Bool.false_ne_true, strip_lastLine hbody]
  | @blockComment g second body star slash _ hg hsecond hbody hstar hslash =>
    have hline : second.is '/' = false := Glyph.is_of_is hsecond (by decide)
    show strip .code (g :: second :: (body ++ [star, slash] ++ follow)) = strip .code follow
    rw [List.append_assoc, strip_slash hg, nextIs, nextIs, hline, if_neg Bool.false_ne_true,
      if_pos hsecond, strip]
    exact strip_block hbody hstar hslash follow
  | _ => simp at hform

section Tokens

variable {g close : Glyph} {body follow : List Glyph}

theorem strip_word (hbody : ∀ x ∈ body, x.isWordPart = true) (follow : List Glyph) :
    strip .code (body ++ follow) = body ++ strip .code follow :=
  strip_plain (fun x hx => Glyph.isPlain_of_isWordPart (hbody x hx)) follow

theorem strip_digits (hbody : ∀ x ∈ body, x.isDigit = true) (follow : List Glyph) :
    strip .code (body ++ follow) = body ++ strip .code follow :=
  strip_plain (fun x hx => Glyph.isPlain_of_isDigit (hbody x hx)) follow

theorem strip_decimal {whole fraction : List Glyph} {point : Glyph}
    (hwhole : ∀ x ∈ whole, x.isDigit = true) (hpoint : point.is '.' = true)
    (hfraction : ∀ x ∈ fraction, x.isDigit = true) (follow : List Glyph) :
    strip .code (whole ++ point :: (fraction ++ follow)) =
      whole ++ point :: (fraction ++ strip .code follow) := by
  have hplain := List.forall_mem_singleton.mpr (Glyph.isPlain_of_point hpoint)
  have hdot : strip .code (point :: (fraction ++ follow)) = point :: strip .code (fraction ++ follow) :=
    strip_plain hplain _
  rw [strip_digits hwhole, hdot, strip_digits hfraction]

/-- The quote opens a region in which blanks and comments are characters like any other. -/
theorem strip_string (hg : g.is '"' = true) (hbody : ∀ x ∈ body, x.is '"' = false)
    (hclose : close.is '"' = true) (follow : List Glyph) :
    strip .code (g :: (body ++ close :: follow)) = g :: (body ++ close :: strip .code follow) := by
  obtain ⟨hblank, -⟩ := Glyph.no_class_of_code (Glyph.is_iff.mp hg) (by decide)
  rw [strip, if_neg hblank, if_pos hg, strip_quoted hbody hclose]

/-- A slash is copied where what follows makes it no comment. -/
theorem strip_alone (hg : g.is '/' = true)
    (hcomment : ∀ x ∈ follow.head?, x.is '/' = false ∧ x.is '*' = false) :
    strip .code (g :: follow) = g :: strip .code follow := by
  rw [strip_slash hg]
  cases follow with
  | nil => rfl
  | cons x rest =>
    obtain ⟨hline, hblock⟩ := hcomment x rfl
    rw [nextIs, hline, if_neg Bool.false_ne_true, nextIs, hblock, if_neg Bool.false_ne_true]

theorem strip_single {s : Symbol} (hcodes : s.codes = [g.code])
    (hcomment : s = .slash → ∀ x ∈ follow.head?, x.is '/' = false ∧ x.is '*' = false) :
    strip .code (g :: follow) = g :: strip .code follow := by
  by_cases hslash : g.is '/' = true
  · exact strip_alone hslash (hcomment ((Symbol.eq_slash_iff hcodes).mpr hslash))
  · have hplain := Glyph.isPlain_of_symbol hcodes (Bool.eq_false_iff.mpr hslash)
    exact strip_plain (List.forall_mem_singleton.mpr hplain) follow

theorem strip_pair {s : Symbol} {second : Glyph} (hcodes : s.codes = [g.code, second.code])
    (follow : List Glyph) :
    strip .code (g :: second :: follow) = g :: second :: strip .code follow := by
  obtain ⟨hfirst, hsecond⟩ := Glyph.isPlain_of_pair hcodes
  have hplain : ∀ x ∈ [g, second], x.IsPlain :=
    List.forall_mem_cons.mpr ⟨hfirst, List.forall_mem_singleton.mpr hsecond⟩
  exact strip_plain hplain follow

end Tokens

/-- Tokens are copied. -/
theorem strip_token {p : Piece} {follow : List Glyph} (h : Munched p follow)
    (htoken : p.isToken = true) :
    strip .code (p.lexeme ++ follow) = p.lexeme ++ strip .code follow := by
  cases h with
  | word hg hbody =>
    exact strip_word (List.forall_mem_cons.mpr ⟨Glyph.isWordPart_iff.mpr (Or.inl hg), hbody⟩) follow
  | integer hg hbody => exact strip_digits (List.forall_mem_cons.mpr ⟨hg, hbody⟩) follow
  | @decimal g whole point first fraction _ hg hwhole hpoint hfirst hfraction =>
    have hleft : ∀ x ∈ g :: whole, x.isDigit = true := List.forall_mem_cons.mpr ⟨hg, hwhole⟩
    have hright : ∀ x ∈ first :: fraction, x.isDigit = true :=
      List.forall_mem_cons.mpr ⟨hfirst, hfraction⟩
    show strip .code (g :: whole ++ point :: first :: fraction ++ follow) =
      g :: whole ++ point :: first :: fraction ++ strip .code follow
    rw [List.append_assoc, List.append_assoc]
    exact strip_decimal hleft hpoint hright follow
  | @string g body close _ hg hbody hclose =>
    show strip .code (g :: (body ++ [close] ++ follow)) = g :: (body ++ [close] ++ strip .code follow)
    rw [List.append_assoc, List.append_assoc]
    exact strip_string hg hbody hclose follow
  | pair hcodes => exact strip_pair hcodes follow
  | single hcodes _ hcomment => exact strip_single hcodes hcomment
  | _ => cases htoken

/-- **Without faulty pieces, exactly the tokens are left** of a text when its trivia are left out. -/
theorem strip_lexemes {ps : List Piece} {follow : List Glyph} (h : Cut ps follow)
    (hok : ∀ p ∈ ps, p.reading = .skipped ∨ p.isToken = true) :
    strip .code (lexemes ps ++ follow) = lexemes (ps.filter Piece.isToken) ++ strip .code follow := by
  induction h with
  | nil => rfl
  | @cons p ps follow hp _ ih =>
    obtain ⟨hread, hok⟩ := List.forall_mem_cons.mp hok
    have hrest := ih hok
    rw [lexemes_cons, List.append_assoc]
    rcases hread with hskipped | htoken
    · have hnot : ¬ p.isToken = true := by simp [Piece.isToken, hskipped]
      rw [strip_skipped hp hskipped, hrest, List.filter_cons_of_neg hnot]
    · rw [strip_token hp htoken, hrest, List.filter_cons_of_pos htoken, lexemes_cons,
        List.append_assoc]

/-- Comments go, and what looks like one inside a string stays. -/
example : spell (strip .code ((ascii "a /* */ \"//\" // b").map fun b => ⟨b, []⟩)) =
    ascii "a\"//\"" := by
  decide

end LoxLexer
