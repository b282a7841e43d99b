import LoxLexer.Proofs.Munching
import LoxLexer.Proofs.Stepping

/-!
# `LoxLexer.Proofs.Dispatch` — the scanner reads the pieces that munching finds

Behind the first character of a piece, the scanner branches on that character and loops until the piece is
over. Each branch is followed here for the pieces that get there, one lemma for each rule of `Munched`:
the scanner reads exactly the rest of the piece and notes what the piece means (`Scanner.ends_dispatch`).
Two rules are about pieces cut short by the end of the text, where the scanner must take a step back. It
always can, since the step that hit the end is the last one.

## Contents
- `Scanner.note` — what is noted of a piece that was read.
- `Scanner.Begun`, `Scanner.Ends` — before and after reading the part of a piece behind its first character.
- `ends_string` … `ends_decimal` — the branches; `dispatch_of_symbol` … `dispatch_of_word` — who gets where.
- `Scanner.ends_dispatch` — all of them together.
-/

namespace LoxLexer

/-- No symbol starts with a blank, a digit, a word character or a quote. -/
theorem Symbol.ofCodes?_of_class {g : Glyph} (h : g.isBlank = true ∨ g.isWordStart = true ∨
    g.isDigit = true ∨ g.is '"' = true) : Symbol.ofCodes? [g.code] = none := by
  rw [Symbol.ofCodes?_eq_none_iff]
  intro t ht
  obtain ⟨hblank, hword, hdigit, hquote⟩ := Symbol.head_class ht
  rw [hblank, hword, hdigit, hquote] at h
  simp at h

namespace Scanner

variable {s s' : Scanner} {p : Piece} {follow : List Glyph}

/-! ## Noting -/

/-- What the scanner notes of a piece that it has read. -/
def note (s : Scanner) : Reading → Scanner
  | .skipped => s
  | .token kind payload => s.emit kind payload
  | .faulty fault => s.fail fault

theorem emitInteger_eq (hform : p.form = .integer) (hlexeme : s.lexeme = p.bytes) :
    s.emitInteger = s.note p.reading := by
  unfold emitInteger Piece.reading
  rw [hform, hlexeme]
  cases Number.integer? p.bytes <;> rfl

theorem emitFloat_eq (hform : p.form = .decimal) (hlexeme : s.lexeme = p.bytes) :
    s.emitFloat = s.note p.reading := by
  unfold emitFloat Piece.reading
  rw [hform, hlexeme]
  cases Number.float? p.bytes <;> rfl

theorem emitWord_eq (hform : p.form = .word) (hlexeme : s.lexeme = p.bytes) :
    s.emitWord = s.note p.reading := by
  unfold emitWord Piece.reading readWord
  rw [hform, hlexeme]
  cases Kind.ofWord p.bytes <;> rfl

/-! ## One piece, behind its first character -/

/-- The first character of the piece has just been read, from `c` on. -/
structure Begun (c : Cursor) (s : Scanner) (p : Piece) (follow : List Glyph) : Prop where
  start : s.start = c.position
  reads : c.Reads [p.head] s.cursor
  ahead : s.cursor.ahead = p.tail ++ follow

/-- The rest of the piece was read, and the piece was noted. -/
def Ends (s : Scanner) (p : Piece) (s' : Scanner) : Prop :=
  ∃ c, s.cursor.Reads p.tail c ∧ s' = (s.moveTo c).note p.reading

namespace Begun

variable {c c' : Cursor}

theorem reads_lexeme (h : Begun c s p follow) (hreads : s.cursor.Reads p.tail c') :
    c.Reads p.lexeme c' :=
  h.reads.trans hreads

theorem position_eq (h : Begun c s p follow) (hreads : s.cursor.Reads p.tail c') :
    c'.position = s.start + p.width := by
  rw [h.start, (h.reads_lexeme hreads).position]
  rfl

theorem lexeme_eq (h : Begun c s p follow) (hreads : s.cursor.Reads p.tail c') :
    (s.moveTo c').lexeme = p.bytes := by
  show (c'.text.drop s.start).take (c'.position - s.start) = p.bytes
  rw [h.start]
  exact (h.reads_lexeme hreads).slice_eq

/-- The content of a string is cut out of the text as it is out of the lexeme. -/
theorem content_eq (h : Begun c s p follow) (hreads : s.cursor.Reads p.tail c') :
    (c'.text.drop (s.start + 1)).take (c'.position - s.start - 2) = stringContent p.bytes := by
  have hwidth : c'.position - s.start = p.width := by
    rw [h.position_eq hreads, Nat.add_sub_cancel_left]
  have hbytes : (c'.text.drop s.start).take p.width = p.bytes := by
    rw [← hwidth]
    exact h.lexeme_eq hreads
  calc (c'.text.drop (s.start + 1)).take (c'.position - s.start - 2)
      = (((c'.text.drop s.start).drop 1).take (p.width - 1)).take (p.width - 2) := by
        rw [hwidth, List.take_take, List.drop_drop, Nat.min_eq_left (by omega)]
    _ = ((p.bytes).drop 1).take (p.width - 2) := by rw [← List.drop_take, hbytes]
    _ = stringContent p.bytes := rfl

end Begun

/-- A step back at the end of the text succeeds, so the scanner does not break down there. -/
theorem ends_failAtEnd {c : Cursor} {fault : Fault} (hreads : s.cursor.Reads p.tail c)
    (hend : c.AtFailedStep) (hreading : p.reading = .faulty fault) :
    s.Ends p ((s.moveTo c).failAtEnd fault) := by
  obtain ⟨c', hback, hreads'⟩ := hend.exists_stepBack hreads
  refine ⟨c', hreads', ?_⟩
  have hcursor : (s.moveTo c).cursor.stepBack = (true, c') := hback
  unfold failAtEnd
  rw [hcursor, hreading]
  rfl

section Shapes

variable {c : Cursor} {g second close star slash point first : Glyph}
  {body whole fraction : List Glyph} {symbol : Symbol}

theorem ends_string (h : Begun c s ⟨.string, g, body ++ [close]⟩ follow)
    (hbody : ∀ x ∈ body, x.is '"' = false) (hclose : close.is '"' = true) :
    s.Ends ⟨.string, g, body ++ [close]⟩ s.scanString := by
  have hahead : s.cursor.ahead = body ++ close :: follow := h.ahead.trans (List.append_assoc ..)
  obtain ⟨c', hloop, hreads⟩ := Cursor.exists_readThrough hahead hbody hclose
  refine ⟨c', hreads, ?_⟩
  unfold scanString
  rw [hloop]
  show (s.moveTo c').emit .string (.text ((c'.text.drop _).take _)) = _
  rw [h.content_eq hreads]
  rfl

theorem ends_openString (h : Begun c s ⟨.openString, g, body⟩ [])
    (hbody : ∀ x ∈ body, x.is '"' = false) : s.Ends ⟨.openString, g, body⟩ s.scanString := by
  have hahead : s.cursor.ahead = body := h.ahead.trans (List.append_nil body)
  obtain ⟨c', hloop, hreads, hend⟩ := Cursor.exists_readThrough_end (hahead ▸ hbody)
  rw [hahead] at hreads
  unfold scanString
  rw [hloop]
  exact ends_failAtEnd hreads hend rfl

/-- What can be seen of the next character. -/
theorem peek_eq_iff {d : Char} :
    s.cursor.peek 0 = some d.toNat ↔ ∃ x ∈ s.cursor.ahead.head?, x.is d = true := by
  simp only [Cursor.peek_zero, Option.map_eq_some_iff, Glyph.is_iff, Option.mem_def]

theorem ends_lineComment (h : Begun c s ⟨.lineComment, g, second :: (body ++ [close])⟩ follow)
    (hsecond : second.is '/' = true) (hbody : ∀ x ∈ body, x.is '\n' = false)
    (hclose : close.is '\n' = true) :
    s.Ends ⟨.lineComment, g, second :: (body ++ [close])⟩ s.scanSlash := by
  have hahead : s.cursor.ahead = (second :: body) ++ close :: follow :=
    h.ahead.trans (congrArg (second :: ·) (List.append_assoc ..))
  have hline : ∀ x ∈ second :: body, x.is '\n' = false :=
    List.forall_mem_cons.mpr ⟨Glyph.is_of_is hsecond (by decide), hbody⟩
  obtain ⟨c', hloop, hreads⟩ := Cursor.exists_readThrough hahead hline hclose
  refine ⟨c', hreads, ?_⟩
  rw [scanSlash, if_pos (peek_eq_iff.mpr ⟨second, h.ahead ▸ rfl, hsecond⟩), scanLineComment, hloop]
  rfl

theorem ends_lastComment (h : Begun c s ⟨.lineComment, g, second :: body⟩ [])
    (hsecond : second.is '/' = true) (hbody : ∀ x ∈ body, x.is '\n' = false) :
    s.Ends ⟨.lineComment, g, second :: body⟩ s.scanSlash := by
  have hahead : s.cursor.ahead = second :: body := h.ahead.trans (List.append_nil _)
  have hline : ∀ x ∈ second :: body, x.is '\n' = false :=
    List.forall_mem_cons.mpr ⟨Glyph.is_of_is hsecond (by decide), hbody⟩
  obtain ⟨c', hloop, hreads, -⟩ := Cursor.exists_readThrough_end (hahead ▸ hline)
  rw [hahead] at hreads
  refine ⟨c', hreads, ?_⟩
  rw [scanSlash, if_pos (peek_eq_iff.mpr ⟨second, h.ahead ▸ rfl, hsecond⟩), scanLineComment, hloop]
  rfl

/-- A slash and a star open a block comment. -/
theorem scanSlash_of_star {c : Cursor} {rest : List Glyph} (hahead : s.cursor.ahead = second :: rest)
    (hsecond : second.is '*' = true) (hnext : s.cursor.next = (some second.code, c)) :
    s.scanSlash = (s.moveTo c).scanBlockComment := by
  have hline : ¬ s.cursor.peek 0 = some '/'.toNat := by
    rw [peek_eq_iff, hahead]
    rintro ⟨x, hx, hslash⟩
    obtain rfl := Option.some.inj hx
    rw [Glyph.is_of_is hsecond (by decide)] at hslash
    cases hslash
  rw [scanSlash, if_neg hline, if_pos (peek_eq_iff.mpr ⟨second, hahead ▸ rfl, hsecond⟩), hnext]

theorem ends_blockComment
    (h : Begun c s ⟨.blockComment, g, second :: (body ++ [star, slash])⟩ follow)
    (hsecond : second.is '*' = true) (hbody : NoClose (body ++ [star])) (hstar : star.is '*' = true)
    (hslash : slash.is '/' = true) :
    s.Ends ⟨.blockComment, g, second :: (body ++ [star, slash])⟩ s.scanSlash := by
  have hahead : s.cursor.ahead = second :: (body ++ star :: slash :: follow) :=
    h.ahead.trans (congrArg (second :: ·) (List.append_assoc ..))
  obtain ⟨c₁, hnext, hfirst⟩ := Cursor.exists_next hahead
  obtain ⟨c', hloop, hreads⟩ :=
    Cursor.exists_readThroughClose (hfirst.ahead_eq hahead) hbody hstar hslash
  refine ⟨c', hfirst.trans hreads, ?_⟩
  have hcursor : (s.moveTo c₁).cursor.readThroughClose = (true, c') := hloop
  rw [scanSlash_of_star hahead hsecond hnext, scanBlockComment, hcursor]
  rfl

theorem ends_openComment (h : Begun c s ⟨.openComment, g, second :: body⟩ [])
    (hsecond : second.is '*' = true) (hbody : NoClose body) :
    s.Ends ⟨.openComment, g, second :: body⟩ s.scanSlash := by
  have hahead : s.cursor.ahead = second :: body := h.ahead.trans (List.append_nil _)
  obtain ⟨c₁, hnext, hfirst⟩ := Cursor.exists_next hahead
  have hrest : c₁.ahead = body := hfirst.ahead_eq hahead
  obtain ⟨c', hloop, hreads, hend⟩ := Cursor.exists_readThroughClose_end (hrest ▸ hbody)
  rw [hrest] at hreads
  have hcursor : (s.moveTo c₁).cursor.readThroughClose = (false, c') := hloop
  rw [scanSlash_of_star hahead hsecond hnext, scanBlockComment, hcursor]
  exact ends_failAtEnd (hfirst.trans hreads) hend rfl

theorem ends_slash (h : Begun c s ⟨.symbol .slash, g, []⟩ follow)
    (hcomment : ∀ x ∈ follow.head?, x.is '/' = false ∧ x.is '*' = false) :
    s.Ends ⟨.symbol .slash, g, []⟩ s.scanSlash := by
  have hpeek : ∀ d : Char, (∀ x ∈ follow.head?, x.is d = false) →
      ¬ s.cursor.peek 0 = some d.toNat := by
    intro d hd
    rw [peek_eq_iff, h.ahead]
    rintro ⟨x, hx, hdx⟩
    rw [hd x hx] at hdx
    cases hdx
  refine ⟨s.cursor, .refl _, ?_⟩
  rw [scanSlash, if_neg (hpeek '/' fun x hx => (hcomment x hx).1),
    if_neg (hpeek '*' fun x hx => (hcomment x hx).2)]
  rfl

theorem ends_pair (h : Begun c s ⟨.symbol symbol, g, [second]⟩ follow)
    (hcodes : symbol.codes = [g.code, second.code]) (first : Symbol) :
    s.Ends ⟨.symbol symbol, g, [second]⟩ (s.scanSymbol g.code first) := by
  have hequals : second.code = '='.toNat := (Symbol.pair_codes hcodes).1
  obtain ⟨c', haccept, hreads⟩ := Cursor.exists_accept h.ahead hequals
  refine ⟨c', hreads, ?_⟩
  have hlonger : Symbol.ofCodes? [g.code, '='.toNat] = some symbol := by
    rw [← hequals]
    exact Symbol.ofCodes?_eq_some_iff.mpr hcodes
  unfold scanSymbol
  rw [hlonger, haccept]
  rfl

theorem ends_single (h : Begun c s ⟨.symbol symbol, g, []⟩ follow)
    (hpair : ∀ x ∈ follow.head?, ∀ t : Symbol, t.codes ≠ [g.code, x.code]) :
    s.Ends ⟨.symbol symbol, g, []⟩ (s.scanSymbol g.code symbol) := by
  refine ⟨s.cursor, .refl _, ?_⟩
  unfold scanSymbol
  cases hlonger : Symbol.ofCodes? [g.code, '='.toNat] with
  | none => rfl
  | some longer =>
    have haccept : s.cursor.accept '='.toNat = (false, s.cursor) := by
      apply Cursor.accept_of_ne
      rw [h.ahead]
      intro x hx hcode
      apply hpair x hx longer
      rw [hcode]
      exact Symbol.ofCodes?_eq_some_iff.mp hlonger
    rw [haccept]
    rfl

theorem ends_word (h : Begun c s ⟨.word, g, body⟩ follow) (hbody : ∀ x ∈ body, x.isWordPart = true)
    (hfollow : ∀ x ∈ follow.head?, x.isWordPart = false) : s.Ends ⟨.word, g, body⟩ s.scanWord := by
  have hreads := Cursor.skipWhile_reads h.ahead hbody hfollow
  exact ⟨_, hreads, emitWord_eq rfl (h.lexeme_eq hreads)⟩

/-- Behind the whole part of a number, a point and a digit make it a decimal. -/
theorem atFraction_eq (c : Cursor) : c.atFraction = startsFraction c.ahead := by
  have hpeek : ∀ n, c.peek n = c.ahead[n]?.map Glyph.code := fun _ => rfl
  rw [Cursor.atFraction, hpeek, hpeek]
  rcases c.ahead with _ | ⟨point, _ | ⟨first, more⟩⟩
  · rfl
  · exact Bool.and_false _
  · rfl

theorem ends_integer (h : Begun c s ⟨.integer, g, body⟩ follow) (hbody : ∀ x ∈ body, x.isDigit = true)
    (hfollow : ∀ x ∈ follow.head?, x.isDigit = false) (hfraction : startsFraction follow = false) :
    s.Ends ⟨.integer, g, body⟩ s.scanNumber := by
  have hreads := Cursor.skipWhile_reads h.ahead hbody hfollow
  refine ⟨_, hreads, ?_⟩
  have hshort : (s.cursor.skipWhile CodePoint.isDigit).atFraction = false := by
    rw [atFraction_eq, hreads.ahead_eq h.ahead, hfraction]
  simp only [scanNumber, hshort, Bool.false_eq_true, if_false]
  exact emitInteger_eq rfl (h.lexeme_eq hreads)

theorem ends_decimal (h : Begun c s ⟨.decimal, g, whole ++ point :: first :: fraction⟩ follow)
    (hwhole : ∀ x ∈ whole, x.isDigit = true) (hpoint : point.is '.' = true)
    (hfirst : first.isDigit = true) (hfraction : ∀ x ∈ fraction, x.isDigit = true)
    (hfollow : ∀ x ∈ follow.head?, x.isDigit = false) :
    s.Ends ⟨.decimal, g, whole ++ point :: first :: fraction⟩ s.scanNumber := by
  have hahead : s.cursor.ahead = whole ++ point :: (first :: fraction ++ follow) :=
    h.ahead.trans (List.append_assoc ..)
  have hstop : ∀ x ∈ (point :: (first :: fraction ++ follow)).head?, x.isDigit = false := by
    intro x hx
    cases hx
    rw [← Bool.not_eq_true, Glyph.isDigit_iff, Glyph.is_iff.mp hpoint]
    decide
  have hleft := Cursor.skipWhile_reads hahead hwhole hstop
  have hmiddle := hleft.ahead_eq hahead
  obtain ⟨c₁, hnext, hone⟩ := Cursor.exists_next hmiddle
  have hright := Cursor.skipWhile_reads (hone.ahead_eq hmiddle)
    (List.forall_mem_cons.mpr ⟨hfirst, hfraction⟩) hfollow
  have hlong : (s.cursor.skipWhile CodePoint.isDigit).atFraction = true := by
    rw [atFraction_eq, hmiddle]
    exact Bool.and_eq_true_iff.mpr ⟨hpoint, hfirst⟩
  have hreads := hleft.trans (hone.trans hright)
  refine ⟨_, hreads, ?_⟩
  simp only [scanNumber, hlong, hnext, if_true]
  exact emitFloat_eq rfl (h.lexeme_eq hreads)

end Shapes

/-! ## Dispatch -/

theorem dispatch_of_symbol {code : CodePoint} {symbol : Symbol}
    (h : Symbol.ofCodes? [code] = some symbol) (hne : symbol ≠ .slash) :
    s.dispatch code = s.scanSymbol code symbol := by
  unfold dispatch
  rw [h]
  cases symbol <;> first | rfl | exact absurd rfl hne

theorem dispatch_of_slash {g : Glyph} (h : g.is '/' = true) : s.dispatch g.code = s.scanSlash := by
  rw [Glyph.is_iff.mp h]
  rfl

/-- Where no symbol starts, the class of the character decides. -/
theorem dispatch_of_none {g : Glyph} (h : Symbol.ofCodes? [g.code] = none) :
    s.dispatch g.code =
      if g.isBlank then s
      else if g.code = '"'.toNat then s.scanString
      else if g.isDigit then s.scanNumber
      else if g.isWordStart then s.scanWord
      else s.fail (.unexpectedCharacter s.lexeme) := by
  unfold dispatch
  rw [h]
  rfl

theorem dispatch_of_quote {g : Glyph} (h : g.is '"' = true) : s.dispatch g.code = s.scanString := by
  rw [Glyph.is_iff.mp h]
  rfl

theorem dispatch_of_digit {g : Glyph} (h : g.isDigit = true) : s.dispatch g.code = s.scanNumber := by
  have hother : ¬ g.isBlank = true ∧ ¬ g.code = '"'.toNat := by
    rw [Glyph.isBlank_iff]
    rw [Glyph.isDigit_iff] at h
    unfold CodePoint at *
    have hquote : '"'.toNat = 34 := rfl
    omega
  rw [dispatch_of_none (Symbol.ofCodes?_of_class (Or.inr (Or.inr (Or.inl h)))),
    if_neg hother.1, if_neg hother.2, if_pos h]

theorem dispatch_of_word {g : Glyph} (h : g.isWordStart = true) : s.dispatch g.code = s.scanWord := by
  have hother : ¬ g.isBlank = true ∧ ¬ g.code = '"'.toNat ∧ ¬ g.isDigit = true := by
    rw [Glyph.isBlank_iff, Glyph.isDigit_iff]
    rw [Glyph.isWordStart_iff] at h
    unfold CodePoint at *
    have hquote : '"'.toNat = 34 := rfl
    omega
  rw [dispatch_of_none (Symbol.ofCodes?_of_class (Or.inr (Or.inl h))), if_neg hother.1,
    if_neg hother.2.1, if_neg hother.2.2, if_pos h]

/-- **One piece.** Behind the first character of a piece, the scanner reads the rest of it and notes it. -/
theorem ends_dispatch {c : Cursor} (h : Begun c s p follow) (hmunched : Munched p follow) :
    s.Ends p (s.dispatch p.head.code) := by
  cases hmunched with
  | @blank g _ hg =>
    rw [dispatch_of_none (Symbol.ofCodes?_of_class (Or.inl hg)), if_pos hg]
    exact ⟨s.cursor, .refl _, rfl⟩
  | word hg hbody hfollow =>
    rw [dispatch_of_word hg]
    exact ends_word h hbody hfollow
  | integer hg hbody hfollow hfraction =>
    rw [dispatch_of_digit hg]
    exact ends_integer h hbody hfollow hfraction
  | decimal hg hwhole hpoint hfirst hfraction hfollow =>
    rw [dispatch_of_digit hg]
    exact ends_decimal h hwhole hpoint hfirst hfraction hfollow
  | string hg hbody hclose =>
    rw [dispatch_of_quote hg]
    exact ends_string h hbody hclose
  | openString hg hbody =>
    rw [dispatch_of_quote hg]
    exact ends_openString h hbody
  | lineComment hg hsecond hbody hclose =>
    rw [dispatch_of_slash hg]
    exact ends_lineComment h hsecond hbody hclose
  | lastComment hg hsecond hbody =>
    rw [dispatch_of_slash hg]
    exact ends_lastComment h hsecond hbody
  | blockComment hg hsecond hbody hstar hslash =>
    rw [dispatch_of_slash hg]
    exact ends_blockComment h hsecond hbody hstar hslash
  | openComment hg hsecond hbody =>
    rw [dispatch_of_slash hg]
    exact ends_openComment h hsecond hbody
  | @pair symbol g second _ hcodes =>
    -- the first character is a symbol by itself, and no slash
    obtain ⟨short, hshort⟩ := Symbol.exists_single hcodes
    have hslash : short ≠ .slash := by
      intro hs
      exact (Symbol.pair_codes hcodes).2 (Glyph.is_iff.mp ((Symbol.eq_slash_iff hshort).mp hs))
    rw [dispatch_of_symbol (Symbol.ofCodes?_eq_some_iff.mpr hshort) hslash]
    exact ends_pair h hcodes short
  | @single symbol g _ hcodes hpair hcomment =>
    by_cases hslash : symbol = .slash
    · rw [dispatch_of_slash ((Symbol.eq_slash_iff hcodes).mp hslash)]
      subst hslash
      exact ends_slash h (hcomment rfl)
    · rw [dispatch_of_symbol (Symbol.ofCodes?_eq_some_iff.mpr hcodes) hslash]
      exact ends_single h hpair
  | @stray g _ hblank hword hdigit hquote hsymbol =>
    have hcode : ¬ g.code = '"'.toNat := by
      rw [← Glyph.is_iff, hquote]
      exact Bool.false_ne_true
    have hlexeme : s.lexeme = Piece.bytes ⟨.stray, g, []⟩ := h.lexeme_eq (.refl s.cursor)
    refine ⟨s.cursor, .refl _, ?_⟩
    rw [dispatch_of_none (Symbol.ofCodes?_eq_none_iff.mpr hsymbol)]
    simp only [hblank, hdigit, hword, hcode, hlexeme, Bool.false_eq_true, if_false]
    rfl

end Scanner

end LoxLexer
