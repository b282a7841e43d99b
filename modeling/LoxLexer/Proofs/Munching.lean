import LoxLexer.Piece.Basic
import LoxLexer.Proofs.Counting

/-!
# `LoxLexer.Proofs.Munching` — the pieces that munching finds, one rule for each shape

`munch` computes where a piece ends. This module says the same thing without computing: `Munched p follow`
holds when `p` is the piece that its first character starts and `follow` is the text behind it. There is
one rule for each way a piece can end, and each rule says what the piece consists of and which of the
next two characters would have made it longer.

## Contents
- `munch_blank` … `munch_symbol` — `munch` one class of first characters at a time.
- `Munched` — the rules. `munchDigit_append` … `munch_stray` say what `munch` does by each of them;
  `munch_of_munched` and `munched_first` put it together, in both directions.
- `SafeSwap` — a change of the text behind a piece that shows it nothing new; `Munched.swap` says that
  the piece then stays as it is.
-/

namespace LoxLexer

/-! ## `munch`, one class of first characters at a time -/

section Dispatch

variable {g : Glyph} {rest : List Glyph}

theorem munch_blank (h : g.isBlank = true) : munch g rest = (.blank, 0) := by
  rw [munch, if_pos h]

theorem munch_word (h : g.isWordStart = true) :
    munch g rest = (.word, runLength Glyph.isWordPart rest) := by
  have hblank : ¬ g.isBlank = true := by
    rw [Glyph.isBlank_iff]
    rw [Glyph.isWordStart_iff] at h
    unfold CodePoint at *
    omega
  rw [munch, if_neg hblank, if_pos h]

theorem munch_digit (h : g.isDigit = true) : munch g rest = munchDigit rest := by
  have hother : ¬ g.isBlank = true ∧ ¬ g.isWordStart = true := by
    rw [Glyph.isBlank_iff, Glyph.isWordStart_iff]
    rw [Glyph.isDigit_iff] at h
    unfold CodePoint at *
    omega
  rw [munch, if_neg hother.1, if_neg hother.2, if_pos h]

/-- A character that is no blank, word character or digit, by its number. -/
theorem Glyph.no_class_of_code {c : CodePoint} (hcode : g.code = c)
    (hc : c ∈ [34, 40, 41, 123, 125, 58, 44, 46, 45, 43, 59, 47, 42, 33, 61, 62, 60]) :
    ¬ g.isBlank = true ∧ ¬ g.isWordStart = true ∧ ¬ g.isDigit = true := by
  rw [Glyph.isBlank_iff, Glyph.isWordStart_iff, Glyph.isDigit_iff, hcode]
  clear hcode
  revert c
  decide

theorem munch_quote (h : g.is '"' = true) : munch g rest = munchQuote rest := by
  obtain ⟨hblank, hword, hdigit⟩ := Glyph.no_class_of_code (Glyph.is_iff.mp h) (by decide)
  rw [munch, if_neg hblank, if_neg hword, if_neg hdigit, if_pos h]

theorem munch_slash (h : g.is '/' = true) : munch g rest = munchSlash rest := by
  obtain ⟨hblank, hword, hdigit⟩ := Glyph.no_class_of_code (Glyph.is_iff.mp h) (by decide)
  have hquote : g.is '"' = false := Glyph.is_of_is h (by decide)
  rw [munch, if_neg hblank, if_neg hword, if_neg hdigit, hquote, if_neg Bool.false_ne_true, if_pos h]

theorem munch_other (hblank : g.isBlank = false) (hword : g.isWordStart = false)
    (hdigit : g.isDigit = false) (hquote : g.is '"' = false) (hslash : g.is '/' = false) :
    munch g rest = munchSymbol g rest := by
  simp only [munch, hblank, hword, hdigit, hquote, hslash, Bool.false_eq_true, if_false]

/-- A character that a symbol starts with starts nothing else, a slash apart. -/
theorem Symbol.head_class {s : Symbol} {codes : List CodePoint} (h : s.codes = g.code :: codes) :
    g.isBlank = false ∧ g.isWordStart = false ∧ g.isDigit = false ∧ g.is '"' = false := by
  have hmem := Symbol.head_codes h
  obtain ⟨hblank, hword, hdigit⟩ := Glyph.no_class_of_code rfl (List.mem_cons_of_mem 34 hmem)
  have hquote : ¬ g.is '"' = true := by
    rw [Glyph.is_iff]
    intro hcode
    rw [hcode] at hmem
    revert hmem
    decide
  exact ⟨Bool.eq_false_iff.mpr hblank, Bool.eq_false_iff.mpr hword, Bool.eq_false_iff.mpr hdigit,
    Bool.eq_false_iff.mpr hquote⟩

/-- Symbols other than the slash are looked up in the table. -/
theorem munch_symbol {s : Symbol} {codes : List CodePoint} (h : s.codes = g.code :: codes)
    (hslash : g.is '/' = false) : munch g rest = munchSymbol g rest := by
  obtain ⟨hblank, hword, hdigit, hquote⟩ := Symbol.head_class h
  exact munch_other hblank hword hdigit hquote hslash

end Dispatch

/-! ## The rules -/

/-- A point and a digit: what makes a decimal of the integer before it. -/
def startsFraction : List Glyph → Bool
  | point :: first :: _ => point.is '.' && first.isDigit
  | _ => false

/-- **What munching finds.** `p` is the piece that its first character starts when `follow` is the text
    behind it. A piece that was cut short by the end of the text has nothing behind it. -/
inductive Munched : Piece → List Glyph → Prop where
  | blank {g follow} (hg : g.isBlank = true) : Munched ⟨.blank, g, []⟩ follow
  | word {g body follow} (hg : g.isWordStart = true) (hbody : ∀ x ∈ body, x.isWordPart = true)
      (hfollow : ∀ x ∈ follow.head?, x.isWordPart = false) : Munched ⟨.word, g, body⟩ follow
  | integer {g body follow} (hg : g.isDigit = true) (hbody : ∀ x ∈ body, x.isDigit = true)
      (hfollow : ∀ x ∈ follow.head?, x.isDigit = false) (hfraction : startsFraction follow = false) :
      Munched ⟨.integer, g, body⟩ follow
  | decimal {g whole point first fraction follow} (hg : g.isDigit = true)
      (hwhole : ∀ x ∈ whole, x.isDigit = true) (hpoint : point.is '.' = true)
      (hfirst : first.isDigit = true) (hfraction : ∀ x ∈ fraction, x.isDigit = true)
      (hfollow : ∀ x ∈ follow.head?, x.isDigit = false) :
      Munched ⟨.decimal, g, whole ++ point :: first :: fraction⟩ follow
  | string {g body close follow} (hg : g.is '"' = true) (hbody : ∀ x ∈ body, x.is '"' = false)
      (hclose : close.is '"' = true) : Munched ⟨.string, g, body ++ [close]⟩ follow
  | openString {g body} (hg : g.is '"' = true) (hbody : ∀ x ∈ body, x.is '"' = false) :
      Munched ⟨.openString, g, body⟩ []
  | lineComment {g second body close follow} (hg : g.is '/' = true) (hsecond : second.is '/' = true)
      (hbody : ∀ x ∈ body, x.is '\n' = false) (hclose : close.is '\n' = true) :
      Munched ⟨.lineComment, g, second :: (body ++ [close])⟩ follow
  /-- The last line of a text may lack its newline. -/
  | lastComment {g second body} (hg : g.is '/' = true) (hsecond : second.is '/' = true)
      (hbody : ∀ x ∈ body, x.is '\n' = false) : Munched ⟨.lineComment, g, second :: body⟩ []
  | blockComment {g second body star slash follow} (hg : g.is '/' = true)
      (hsecond : second.is '*' = true) (hbody : NoClose (body ++ [star])) (hstar : star.is '*' = true)
      (hslash : slash.is '/' = true) :
      Munched ⟨.blockComment, g, second :: (body ++ [star, slash])⟩ follow
  | openComment {g second body} (hg : g.is '/' = true) (hsecond : second.is '*' = true)
      (hbody : NoClose body) : Munched ⟨.openComment, g, second :: body⟩ []
  | pair {s : Symbol} {g second follow} (hcodes : s.codes = [g.code, second.code]) :
      Munched ⟨.symbol s, g, [second]⟩ follow
  | single {s : Symbol} {g follow} (hcodes : s.codes = [g.code])
      (hpair : ∀ x ∈ follow.head?, ∀ t : Symbol, t.codes ≠ [g.code, x.code])
      (hcomment : s = .slash → ∀ x ∈ follow.head?, x.is '/' = false ∧ x.is '*' = false) :
      Munched ⟨.symbol s, g, []⟩ follow
  | stray {g follow} (hblank : g.isBlank = false) (hword : g.isWordStart = false)
      (hdigit : g.isDigit = false) (hquote : g.is '"' = false)
      (hsymbol : ∀ t : Symbol, t.codes ≠ [g.code]) : Munched ⟨.stray, g, []⟩ follow

/-- A slash is the symbol of its own number. -/
theorem Symbol.eq_slash_iff {s : Symbol} {g : Glyph} (h : s.codes = [g.code]) :
    s = .slash ↔ g.is '/' = true := by
  rw [Glyph.is_iff]
  constructor
  · rintro rfl
    exact (List.cons.inj h).1.symm
  · intro hg
    apply Symbol.codes_injective s .slash
    rw [h, hg]
    rfl

/-! ## What each rule munches

The rules that share a first character, group by group. -/

section Rules

variable {body follow : List Glyph} {second close : Glyph}

/-! ### Numbers -/

theorem munchDigit_append {whole : List Glyph} (hwhole : ∀ x ∈ whole, x.isDigit = true)
    (hfollow : ∀ x ∈ follow.head?, x.isDigit = false) : munchDigit (whole ++ follow) =
      if startsFraction follow then
        (.decimal, whole.length + 2 + runLength Glyph.isDigit (follow.drop 2))
      else (.integer, whole.length) := by
  rw [munchDigit, runLength_append hwhole hfollow, List.drop_left]
  match follow with
  | [] => rfl
  | [_] => rfl
  | point :: first :: more => rfl

/-- The whole part ends at the point, and behind the point the run of digits starts anew. -/
theorem munchDigit_decimal {whole : List Glyph} {point first : Glyph}
    (hwhole : ∀ x ∈ whole, x.isDigit = true) (hpoint : point.is '.' = true)
    (hfirst : first.isDigit = true) (more : List Glyph) :
    munchDigit (whole ++ point :: first :: more) =
      (.decimal, whole.length + 2 + runLength Glyph.isDigit more) := by
  have hstop : ∀ x ∈ (point :: first :: more).head?, x.isDigit = false := by
    intro x hx
    cases hx
    rw [← Bool.not_eq_true, Glyph.isDigit_iff, Glyph.is_iff.mp hpoint]
    decide
  have hstarts : startsFraction (point :: first :: more) = true := by
    simp [startsFraction, hpoint, hfirst]
  rw [munchDigit_append hwhole hstop, if_pos hstarts, List.drop_succ_cons, List.drop_succ_cons,
    List.drop_zero]

/-! ### Strings -/

theorem munchQuote_closed (hbody : ∀ x ∈ body, x.is '"' = false) (hclose : close.is '"' = true)
    (follow : List Glyph) : munchQuote (body ++ close :: follow) = (.string, body.length + 1) := by
  have hlength : lengthThrough? '"' (body ++ close :: follow) = some (body.length + 1) :=
    lengthThrough?_eq_some_iff.mpr ⟨body, close, follow, rfl, hbody, hclose, rfl⟩
  rw [munchQuote, hlength]

theorem munchQuote_open (hbody : ∀ x ∈ body, x.is '"' = false) :
    munchQuote body = (.openString, body.length) := by
  rw [munchQuote, lengthThrough?_eq_none_iff.mpr hbody]

/-! ### Comments -/

/-- The slash that makes a comment of the first one does not end its line. -/
theorem forall_line (hsecond : second.is '/' = true) (hbody : ∀ x ∈ body, x.is '\n' = false) :
    ∀ x ∈ second :: body, x.is '\n' = false :=
  List.forall_mem_cons.mpr ⟨Glyph.is_of_is hsecond (by decide), hbody⟩

theorem munchSlash_line (hsecond : second.is '/' = true) (hbody : ∀ x ∈ body, x.is '\n' = false)
    (hclose : close.is '\n' = true) (follow : List Glyph) :
    munchSlash (second :: (body ++ close :: follow)) = (.lineComment, body.length + 2) := by
  have hlength : lengthThrough? '\n' (second :: (body ++ close :: follow)) = some (body.length + 2) :=
    lengthThrough?_eq_some_iff.mpr
      ⟨second :: body, close, follow, rfl, forall_line hsecond hbody, hclose, rfl⟩
  rw [munchSlash, if_pos hsecond, hlength]
  rfl

theorem munchSlash_lastLine (hsecond : second.is '/' = true) (hbody : ∀ x ∈ body, x.is '\n' = false) :
    munchSlash (second :: body) = (.lineComment, body.length + 1) := by
  have hlength : lengthThrough? '\n' (second :: body) = none :=
    lengthThrough?_eq_none_iff.mpr (forall_line hsecond hbody)
  rw [munchSlash, if_pos hsecond, hlength]
  rfl

/-- A star makes a block comment, by what is behind it. -/
theorem munchSlash_star (hsecond : second.is '*' = true) (rest : List Glyph) :
    munchSlash (second :: rest) = match lengthThroughClose? rest with
      | some length => (.blockComment, length + 1)
      | none => (.openComment, rest.length + 1) := by
  have hline : second.is '/' = false := Glyph.is_of_is hsecond (by decide)
  rw [munchSlash, hline, if_neg Bool.false_ne_true, if_pos hsecond]
  rfl

theorem munchSlash_block {star slash : Glyph} (hsecond : second.is '*' = true)
    (hbody : NoClose (body ++ [star])) (hstar : star.is '*' = true) (hslash : slash.is '/' = true)
    (follow : List Glyph) :
    munchSlash (second :: (body ++ star :: slash :: follow)) = (.blockComment, body.length + 3) := by
  have hlength : lengthThroughClose? (body ++ star :: slash :: follow) = some (body.length + 2) :=
    lengthThroughClose?_eq_some_iff.mpr ⟨body, star, slash, follow, rfl, hbody, hstar, hslash, rfl⟩
  rw [munchSlash_star hsecond, hlength]

theorem munchSlash_openBlock (hsecond : second.is '*' = true) (hbody : NoClose body) :
    munchSlash (second :: body) = (.openComment, body.length + 1) := by
  rw [munchSlash_star hsecond, lengthThroughClose?_eq_none_iff.mpr hbody]

theorem munchSlash_alone (h : ∀ x ∈ follow.head?, x.is '/' = false ∧ x.is '*' = false) :
    munchSlash follow = (.symbol .slash, 0) := by
  cases follow with
  | nil => rfl
  | cons x rest =>
    obtain ⟨hline, hblock⟩ := h x rfl
    simp only [munchSlash, hline, hblock, Bool.false_eq_true, if_false]

/-! ### Symbols -/

variable {g : Glyph}

theorem munchSymbol_pair {s : Symbol} (hcodes : s.codes = [g.code, second.code]) (follow : List Glyph) :
    munchSymbol g (second :: follow) = (.symbol s, 1) := by
  have hfound : ((second :: follow).head?.bind fun x => Symbol.ofCodes? [g.code, x.code]) = some s :=
    Symbol.ofCodes?_eq_some_iff.mpr hcodes
  rw [munchSymbol, hfound]

/-- Where no symbol of two characters starts, the first character decides. -/
theorem munchSymbol_single (hpair : ∀ x ∈ follow.head?, ∀ t : Symbol, t.codes ≠ [g.code, x.code]) :
    munchSymbol g follow = match Symbol.ofCodes? [g.code] with
      | some s => (.symbol s, 0)
      | none => (.stray, 0) := by
  have hnone : (follow.head?.bind fun second => Symbol.ofCodes? [g.code, second.code]) = none := by
    rw [Option.bind_eq_none_iff]
    intro x hx
    exact Symbol.ofCodes?_eq_none_iff.mpr (hpair x hx)
  cases hsingle : Symbol.ofCodes? [g.code] <;> simp only [munchSymbol, hnone, hsingle]

theorem munch_pair {s : Symbol} (hcodes : s.codes = [g.code, second.code]) (follow : List Glyph) :
    munch g (second :: follow) = (.symbol s, 1) := by
  have hslash : g.is '/' = false := by
    rw [← Bool.not_eq_true, Glyph.is_iff]
    exact (Symbol.pair_codes hcodes).2
  rw [munch_symbol hcodes hslash, munchSymbol_pair hcodes]

theorem munch_single {s : Symbol} (hcodes : s.codes = [g.code])
    (hpair : ∀ x ∈ follow.head?, ∀ t : Symbol, t.codes ≠ [g.code, x.code])
    (hcomment : s = .slash → ∀ x ∈ follow.head?, x.is '/' = false ∧ x.is '*' = false) :
    munch g follow = (.symbol s, 0) := by
  by_cases hs : s = .slash
  · -- the slash is munched apart, and nothing behind it opens a comment
    rw [munch_slash ((Symbol.eq_slash_iff hcodes).mp hs), munchSlash_alone (hcomment hs), hs]
  · have hslash : g.is '/' = false :=
      Bool.eq_false_iff.mpr fun h => hs ((Symbol.eq_slash_iff hcodes).mpr h)
    rw [munch_symbol hcodes hslash, munchSymbol_single hpair, Symbol.ofCodes?_eq_some_iff.mpr hcodes]

theorem munch_stray (hblank : g.isBlank = false) (hword : g.isWordStart = false)
    (hdigit : g.isDigit = false) (hquote : g.is '"' = false)
    (hsymbol : ∀ t : Symbol, t.codes ≠ [g.code]) (follow : List Glyph) : munch g follow = (.stray, 0) := by
  have hslash : g.is '/' = false := by
    rw [← Bool.not_eq_true, Glyph.is_iff]
    intro hcode
    exact hsymbol .slash (by rw [hcode]; rfl)
  -- a symbol of two characters would make one of the first of them alone
  have hpair : ∀ x ∈ follow.head?, ∀ t : Symbol, t.codes ≠ [g.code, x.code] := by
    intro x _ t ht
    obtain ⟨u, hu⟩ := Symbol.exists_single ht
    exact hsymbol u hu
  rw [munch_other hblank hword hdigit hquote hslash, munchSymbol_single hpair,
    Symbol.ofCodes?_eq_none_iff.mpr hsymbol]

end Rules

/-! ## The rules are what munching does -/

/-- `munch` finds what the rules say. -/
theorem munch_of_munched {p : Piece} {follow : List Glyph} (h : Munched p follow) :
    munch p.head (p.tail ++ follow) = (p.form, p.tail.length) := by
  cases h with
  | blank hg => exact munch_blank hg
  | word hg hbody hfollow => rw [munch_word hg, runLength_append hbody hfollow]
  | integer hg hbody hfollow hfraction =>
    rw [munch_digit hg, munchDigit_append hbody hfollow, hfraction]
    rfl
  | decimal hg hwhole hpoint hfirst hfraction hfollow =>
    rw [List.append_assoc, List.cons_append, List.cons_append, munch_digit hg,
      munchDigit_decimal hwhole hpoint hfirst, runLength_append hfraction hfollow, List.length_append,
      List.length_cons, List.length_cons, Nat.add_assoc, Nat.add_comm 2]
  | string hg hbody hclose =>
    rw [List.append_assoc, List.singleton_append, munch_quote hg, munchQuote_closed hbody hclose,
      List.length_append, List.length_singleton]
  | openString hg hbody => rw [List.append_nil, munch_quote hg, munchQuote_open hbody]
  | lineComment hg hsecond hbody hclose =>
    rw [List.cons_append, List.append_assoc, List.singleton_append, munch_slash hg,
      munchSlash_line hsecond hbody hclose, List.length_cons, List.length_append, List.length_singleton]
  | lastComment hg hsecond hbody =>
    rw [List.append_nil, munch_slash hg, munchSlash_lastLine hsecond hbody, List.length_cons]
  | blockComment hg hsecond hbody hstar hslash =>
    rw [List.cons_append, List.append_assoc, List.cons_append, List.singleton_append, munch_slash hg,
      munchSlash_block hsecond hbody hstar hslash, List.length_cons, List.length_append]
    rfl
  | openComment hg hsecond hbody =>
    rw [List.append_nil, munch_slash hg, munchSlash_openBlock hsecond hbody, List.length_cons]
  | pair hcodes => exact munch_pair hcodes follow
  | single hcodes hpair hcomment => exact munch_single hcodes hpair hcomment
  | stray hblank hword hdigit hquote hsymbol =>
    exact munch_stray hblank hword hdigit hquote hsymbol follow

theorem exists_munched_slash {g : Glyph} (hg : g.is '/' = true) (rest : List Glyph) :
    ∃ form tail follow, rest = tail ++ follow ∧ Munched ⟨form, g, tail⟩ follow := by
  have hcodes : Symbol.slash.codes = [g.code] := by
    rw [Glyph.is_iff.mp hg]
    rfl
  have hpair : ∀ x ∈ rest.head?, ∀ t : Symbol, t.codes ≠ [g.code, x.code] := by
    intro x _ t ht
    exact (Symbol.pair_codes ht).2 (Glyph.is_iff.mp hg)
  -- a slash is a symbol by itself unless the next character makes it open a comment
  by_cases hcomment : ∀ x ∈ rest.head?, x.is '/' = false ∧ x.is '*' = false
  · exact ⟨.symbol .slash, [], rest, rfl, .single hcodes hpair fun _ => hcomment⟩
  match rest with
  | [] => exact absurd (by simp) hcomment
  | second :: more =>
    by_cases hline : second.is '/' = true
    · cases hlength : lengthThrough? '\n' more with
      | some n =>
        obtain ⟨body, close, follow, hmore, hbody, hclose, _⟩ :=
          lengthThrough?_eq_some_iff.mp hlength
        exact ⟨.lineComment, second :: (body ++ [close]), follow, by simp [hmore],
          .lineComment hg hline hbody hclose⟩
      | none =>
        exact ⟨.lineComment, second :: more, [], (List.append_nil _).symm,
          .lastComment hg hline (lengthThrough?_eq_none_iff.mp hlength)⟩
    · have hblock : second.is '*' = true := by
        by_cases hstar : second.is '*' = true
        · exact hstar
        · refine absurd ?_ hcomment
          intro x hx
          cases hx
          exact ⟨Bool.eq_false_iff.mpr hline, Bool.eq_false_iff.mpr hstar⟩
      cases hlength : lengthThroughClose? more with
      | some n =>
        obtain ⟨body, star, slash, follow, hmore, hbody, hstar, hslash, _⟩ :=
          lengthThroughClose?_eq_some_iff.mp hlength
        exact ⟨.blockComment, second :: (body ++ [star, slash]), follow, by simp [hmore],
          .blockComment hg hblock hbody hstar hslash⟩
      | none =>
        exact ⟨.openComment, second :: more, [], (List.append_nil _).symm,
          .openComment hg hblock (lengthThroughClose?_eq_none_iff.mp hlength)⟩

theorem exists_munched_symbol {g : Glyph} (hblank : g.isBlank = false)
    (hword : g.isWordStart = false) (hdigit : g.isDigit = false) (hquote : g.is '"' = false)
    (hslash : g.is '/' = false) (rest : List Glyph) :
    ∃ form tail follow, rest = tail ++ follow ∧ Munched ⟨form, g, tail⟩ follow := by
  by_cases hsymbol : ∀ t : Symbol, t.codes ≠ [g.code]
  · exact ⟨.stray, [], rest, rfl, .stray hblank hword hdigit hquote hsymbol⟩
  by_cases hpair : ∀ x ∈ rest.head?, ∀ t : Symbol, t.codes ≠ [g.code, x.code]
  · obtain ⟨s, hs⟩ := not_forall_not.mp hsymbol
    refine ⟨.symbol s, [], rest, rfl, .single hs hpair ?_⟩
    intro heq
    rw [(Symbol.eq_slash_iff hs).mp heq] at hslash
    exact absurd hslash (by decide)
  · match rest with
    | [] => exact absurd (by simp) hpair
    | second :: more =>
      simp only [List.head?_cons, Option.mem_def, Option.some.injEq, forall_eq'] at hpair
      obtain ⟨s, hs⟩ := not_forall_not.mp hpair
      exact ⟨.symbol s, [second], more, rfl, .pair hs⟩

/-- Every text starts with a piece that the rules allow. -/
theorem exists_munched (g : Glyph) (rest : List Glyph) :
    ∃ form tail follow, rest = tail ++ follow ∧ Munched ⟨form, g, tail⟩ follow := by
  by_cases hblank : g.isBlank = true
  · exact ⟨.blank, [], rest, rfl, .blank hblank⟩
  by_cases hword : g.isWordStart = true
  · obtain ⟨body, follow, hrest, hbody, hfollow⟩ := exists_run Glyph.isWordPart rest
    exact ⟨.word, body, follow, hrest, .word hword hbody hfollow⟩
  by_cases hdigit : g.isDigit = true
  · obtain ⟨whole, follow, hrest, hwhole, hfollow⟩ := exists_run Glyph.isDigit rest
    -- the run of digits may be the whole part of a decimal
    by_cases hfraction : startsFraction follow = true
    · match follow with
      | point :: first :: more =>
        obtain ⟨hpoint, hfirst⟩ := Bool.and_eq_true_iff.mp hfraction
        obtain ⟨fraction, follow, rfl, hdigits, hstop⟩ := exists_run Glyph.isDigit more
        exact ⟨.decimal, whole ++ point :: first :: fraction, follow, by simp [hrest],
          .decimal hdigit hwhole hpoint hfirst hdigits hstop⟩
    · exact ⟨.integer, whole, follow, hrest,
        .integer hdigit hwhole hfollow (Bool.eq_false_iff.mpr hfraction)⟩
  by_cases hquote : g.is '"' = true
  · cases hlength : lengthThrough? '"' rest with
    | some n =>
      obtain ⟨body, close, follow, hrest, hbody, hclose, _⟩ := lengthThrough?_eq_some_iff.mp hlength
      exact ⟨.string, body ++ [close], follow, by simp [hrest], .string hquote hbody hclose⟩
    | none =>
      exact ⟨.openString, rest, [], (List.append_nil _).symm,
        .openString hquote (lengthThrough?_eq_none_iff.mp hlength)⟩
  by_cases hslash : g.is '/' = true
  · exact exists_munched_slash hslash rest
  rw [Bool.not_eq_true] at hblank hword hdigit hquote hslash
  exact exists_munched_symbol hblank hword hdigit hquote hslash rest

/-- The piece cut from a text is the one that the rules allow: there is no other. -/
theorem first_of_munched {p : Piece} {follow : List Glyph} (h : Munched p follow) :
    Piece.first p.head (p.tail ++ follow) = p := by
  rw [Piece.first, munch_of_munched h, List.take_left]

/-- What munching leaves over is the text behind the piece. -/
theorem drop_munch_of_munched {p : Piece} {follow : List Glyph} (h : Munched p follow) :
    (p.tail ++ follow).drop (munch p.head (p.tail ++ follow)).2 = follow := by
  rw [munch_of_munched h, List.drop_left]

/-- The piece cut from a text is one that the rules allow. -/
theorem munched_first (g : Glyph) (rest : List Glyph) :
    Munched (Piece.first g rest) (rest.drop (munch g rest).2) := by
  obtain ⟨form, tail, follow, rfl, h⟩ := exists_munched g rest
  have hfirst : Piece.first g (tail ++ follow) = ⟨form, g, tail⟩ := first_of_munched h
  have hdrop : (tail ++ follow).drop (munch g (tail ++ follow)).2 = follow :=
    drop_munch_of_munched h
  rw [hfirst, hdrop]
  exact h

/-- Every shape but the stray character starts with an ASCII character. -/
theorem Munched.head_code_lt {p : Piece} {follow : List Glyph} (h : Munched p follow)
    (hform : p.form ≠ .stray) : p.head.code < 0x80 := by
  have his : ∀ {g : Glyph} {c : Char}, g.is c = true → c.toNat < 0x80 → g.code < 0x80 := by
    intro g c hg hc
    rw [Glyph.is_iff.mp hg]
    exact hc
  have hsymbol : ∀ {s : Symbol} {c rest}, s.codes = c :: rest → c < 0x80 := by
    intro s c rest hcodes
    have hall : ∀ c ∈ [40, 41, 123, 125, 58, 44, 46, 45, 43, 59, 47, 42, 33, 61, 62, 60],
        c < 0x80 := by decide
    exact hall c (Symbol.head_codes hcodes)
  have hdigit : ∀ {g : Glyph}, g.isDigit = true → g.code < 0x80 := by
    intro g hg
    rw [Glyph.isDigit_iff] at hg
    unfold CodePoint at *
    omega
  cases h with
  | @blank g _ hg =>
    show g.code < 0x80
    rw [Glyph.isBlank_iff] at hg
    unfold CodePoint at *
    omega
  | @word g _ _ hg =>
    show g.code < 0x80
    rw [Glyph.isWordStart_iff] at hg
    unfold CodePoint at *
    omega
  | integer hg => exact hdigit hg
  | decimal hg => exact hdigit hg
  | string hg => exact his hg (by decide)
  | openString hg => exact his hg (by decide)
  | lineComment hg => exact his hg (by decide)
  | lastComment hg => exact his hg (by decide)
  | blockComment hg => exact his hg (by decide)
  | openComment hg => exact his hg (by decide)
  | pair hcodes => exact hsymbol hcodes
  | single hcodes => exact hsymbol hcodes
  | stray => exact absurd rfl hform

/-! ## Changing the text behind a piece

A piece looks at two characters behind it at most. A change of the text there is safe when it brings no
character in front of the piece that was not there before, blanks apart: no blank extends any piece. -/

/-- The new text starts with a blank, with the character that the old one starts with, or not at all, and
    it starts with a fraction only if the old one does. -/
structure SafeSwap (old new : List Glyph) : Prop where
  head : ∀ x ∈ new.head?, x.isBlank = true ∨ x ∈ old.head?
  fraction : startsFraction new = true → startsFraction old = true

namespace SafeSwap

theorem nil (old : List Glyph) : SafeSwap old [] where
  head := by intro x hx; cases hx
  fraction := by intro h; cases h

theorem blank {b : Glyph} (hb : b.isBlank = true) (old rest : List Glyph) :
    SafeSwap old (b :: rest) where
  head := by
    intro x hx
    cases hx
    exact Or.inl hb
  fraction := by
    intro h
    have hpoint : b.is '.' = false := Glyph.is_of_isBlank hb (by decide)
    cases rest with
    | nil => cases h
    | cons first more => simp [startsFraction, hpoint] at h

/-- A change stays safe behind a character that is the same in both texts. -/
theorem cons {old new : List Glyph} (h : SafeSwap old new) (g : Glyph) :
    SafeSwap (g :: old) (g :: new) where
  head := fun _ hx => Or.inr hx
  fraction := by
    intro hnew
    cases new with
    | nil => cases hnew
    | cons first more =>
      obtain ⟨hpoint, hfirst⟩ := Bool.and_eq_true_iff.mp hnew
      rcases h.head first rfl with hblank | hold
      · rw [Glyph.isDigit_of_isBlank hblank] at hfirst
        cases hfirst
      · cases old with
        | nil => cases hold
        | cons x rest =>
          cases hold
          simp [startsFraction, hpoint, hfirst]

theorem append {old new : List Glyph} (h : SafeSwap old new) (common : List Glyph) :
    SafeSwap (common ++ old) (common ++ new) := by
  induction common with
  | nil => exact h
  | cons g rest ih => exact ih.cons g

/-- What holds of every blank and of the character behind the old text's start holds behind the new. -/
theorem forall_head {old new : List Glyph} (h : SafeSwap old new) {q : Glyph → Prop}
    (hblank : ∀ x : Glyph, x.isBlank = true → q x) (hold : ∀ x ∈ old.head?, q x) :
    ∀ x ∈ new.head?, q x := by
  intro x hx
  rcases h.head x hx with hx | hx
  · exact hblank x hx
  · exact hold x hx

end SafeSwap

/-- The piece was cut short by the end of the text: a string or a block comment without its end, or a
    line comment without its newline. -/
def Piece.isUnclosed (p : Piece) : Bool :=
  match p.form with
  | .openString | .openComment => true
  | .lineComment => !p.tail.any (·.is '\n')
  | _ => false

/-- Nothing follows an unclosed piece. -/
theorem Munched.follow_eq_nil {p : Piece} {follow : List Glyph} (h : Munched p follow)
    (hopen : p.isUnclosed = true) : follow = [] := by
  cases h with
  | openString => rfl
  | openComment => rfl
  | lastComment => rfl
  | lineComment _ _ _ hclose => simp [Piece.isUnclosed, hclose] at hopen
  | _ => cases hopen

/-- **A piece stays a piece** when the text behind it changes safely. An unclosed piece, which has nothing
    behind it, must not get anything. -/
theorem Munched.swap {p : Piece} {old new : List Glyph} (h : Munched p old)
    (hswap : SafeSwap old new) (hopen : p.isUnclosed = true → old = [] → new = []) :
    Munched p new := by
  cases h with
  | blank hg => exact .blank hg
  | word hg hbody hfollow =>
    exact .word hg hbody (hswap.forall_head (fun _ => Glyph.isWordPart_of_isBlank) hfollow)
  | integer hg hbody hfollow hfraction =>
    refine .integer hg hbody
      (hswap.forall_head (fun _ => Glyph.isDigit_of_isBlank) hfollow) (Bool.eq_false_iff.mpr ?_)
    intro hnew
    rw [hswap.fraction hnew] at hfraction
    cases hfraction
  | decimal hg hwhole hpoint hfirst hfraction hfollow =>
    exact .decimal hg hwhole hpoint hfirst hfraction
      (hswap.forall_head (fun _ => Glyph.isDigit_of_isBlank) hfollow)
  | string hg hbody hclose => exact .string hg hbody hclose
  | openString hg hbody =>
    rw [hopen rfl rfl]
    exact .openString hg hbody
  | lineComment hg hsecond hbody hclose => exact .lineComment hg hsecond hbody hclose
  | @lastComment g second body hg hsecond hbody =>
    -- without its newline the comment is unclosed, so still nothing may follow
    have hline : second.is '\n' = false := Glyph.is_of_is hsecond (by decide)
    rw [hopen (by simpa [Piece.isUnclosed, hline] using hbody) rfl]
    exact .lastComment hg hsecond hbody
  | blockComment hg hsecond hbody hstar hslash =>
    exact .blockComment hg hsecond hbody hstar hslash
  | openComment hg hsecond hbody =>
    rw [hopen rfl rfl]
    exact .openComment hg hsecond hbody
  | pair hcodes => exact .pair hcodes
  | @single s g _ hcodes hpair hcomment =>
    refine .single hcodes (hswap.forall_head ?_ hpair) ?_
    · -- the second character of a symbol is `=`, which is no blank
      intro x hx t ht
      rw [Glyph.isBlank_iff, (Symbol.pair_codes ht).1] at hx
      revert hx
      decide
    · intro hs
      refine hswap.forall_head ?_ (hcomment hs)
      intro x hx
      exact ⟨Glyph.is_of_isBlank hx (by decide), Glyph.is_of_isBlank hx (by decide)⟩
  | stray hblank hword hdigit hquote hsymbol => exact .stray hblank hword hdigit hquote hsymbol

end LoxLexer
