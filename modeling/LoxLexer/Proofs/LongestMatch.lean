import LoxLexer.Proofs.Placement

/-!
# `LoxLexer.Proofs.LongestMatch` — every token is the longest one, and of the kind of its lexeme

The lexical forms of the language are languages over decoded characters: the symbols, the words, the two
forms of numbers, and the strings. Scanning never stops short. Where a token or an unreadable number
stands, no longer stretch of the text, from the same character on, belongs to any form at all; and where
a character is unexpected, no form, blank or comment starts with it.

The argument is one bound for all forms and all contexts: whatever starts with a character and belongs to
a form is no longer than what munching takes from there (`Kind.Matches.length_le_munch`).

## Contents
- `IsWord`, `IsWhole`, `IsDecimal`, `IsQuoted`, `Kind.Matches` — the forms, and the form of each kind.
- `Longest`, `SpanReads` — a prefix that no form extends, and the characters at a span.
- `Classification` — what is claimed of a text and its scan; `scan_classification` proves it of every text.
-/

namespace LoxLexer

/-! ## The lexical forms -/

/-- A letter or underscore, and then letters, underscores and digits. -/
def IsWord (glyphs : List Glyph) : Prop :=
  ∃ first body, glyphs = first :: body ∧ first.isWordStart = true ∧ ∀ x ∈ body, x.isWordPart = true

/-- Digits, at least one. -/
def IsWhole (glyphs : List Glyph) : Prop := glyphs ≠ [] ∧ ∀ x ∈ glyphs, x.isDigit = true

instance (glyphs : List Glyph) : Decidable (IsWhole glyphs) := inferInstanceAs (Decidable (_ ∧ _))

/-- Digits, a point and digits, at least one on either side. -/
def IsDecimal (glyphs : List Glyph) : Prop :=
  ∃ whole point fraction, glyphs = whole ++ point :: fraction ∧ IsWhole whole ∧ point.is '.' = true ∧
    IsWhole fraction

/-- Two quotes with no quote between them. -/
def IsQuoted (glyphs : List Glyph) : Prop :=
  ∃ first body last, glyphs = first :: (body ++ [last]) ∧ first.is '"' = true ∧
    (∀ x ∈ body, x.is '"' = false) ∧ last.is '"' = true

/-- The form of the lexemes of a kind. The end of the input has no lexeme. -/
def Kind.Matches : Kind → List Glyph → Prop
  | .symbol s, glyphs => glyphs.map Glyph.code = s.codes
  | .identifier, glyphs => IsWord glyphs
  | .keyword _, glyphs => IsWord glyphs
  | .integer, glyphs => IsWhole glyphs
  | .float, glyphs => IsDecimal glyphs
  | .string, glyphs => IsQuoted glyphs
  | .endOfInput, _ => False

/-- No longer prefix of the text belongs to any form. -/
def Longest (lexeme text : List Glyph) : Prop :=
  ∀ longer, longer <+: text → lexeme.length < longer.length → ∀ kind : Kind, ¬ kind.Matches longer

/-- The characters at the span, and those behind it, in the text from the span on. -/
structure SpanReads (source : Bytes) (span : Span) (lexeme rest : List Glyph) : Prop where
  here : decode (source.drop span.offset) = lexeme ++ rest
  width : (spell lexeme).length = span.length

instance (source : Bytes) (span : Span) (lexeme rest : List Glyph) :
    Decidable (SpanReads source span lexeme rest) :=
  decidable_of_iff (decode (source.drop span.offset) = lexeme ++ rest ∧
      (spell lexeme).length = span.length)
    ⟨fun ⟨hhere, hwidth⟩ => ⟨hhere, hwidth⟩, fun h => ⟨h.here, h.width⟩⟩

/-- **Every token is the longest one, and of the kind of its lexeme.** -/
structure Classification (source : Bytes) (s : Scan) : Prop where
  token : ∀ t ∈ s.properTokens, ∃ lexeme rest, SpanReads source t.span lexeme rest ∧
    t.kind.Matches lexeme ∧ Longest lexeme (lexeme ++ rest) ∧
    (IsWord lexeme → (∀ k, t.kind = .keyword k ↔ spell lexeme = k.spelling) ∧
      (t.kind = .identifier ↔ ∀ k : Keyword, spell lexeme ≠ k.spelling)) ∧
    (t.kind = .symbol .slash → ∀ x ∈ rest.head?, x.is '/' = false ∧ x.is '*' = false)
  unreadable : ∀ e ∈ s.errors, ∀ text,
    e.fault = .unreadableInteger text ∨ e.fault = .unreadableFloat text →
      ∃ lexeme rest, SpanReads source e.span lexeme rest ∧ (IsWhole lexeme ∨ IsDecimal lexeme) ∧
        Longest lexeme (lexeme ++ rest)
  /-- Every comment starts with a slash. -/
  unexpected : ∀ e ∈ s.errors, ∀ text, e.fault = .unexpectedCharacter text →
    ∃ g rest, SpanReads source e.span [g] rest ∧ g.isBlank = false ∧ g.is '/' = false ∧
      ∀ (kind : Kind) (body : List Glyph), ¬ kind.Matches (g :: body)

/-! ## No form is longer than what is munched -/

theorem length_le_runLength {p : Glyph → Bool} {body : List Glyph} (hbody : ∀ x ∈ body, p x = true)
    (more : List Glyph) : body.length ≤ runLength p (body ++ more) := by
  rw [runLength, List.takeWhile_append_of_pos hbody, List.length_append]
  exact Nat.le_add_right _ _

theorem runLength_le_munchDigit (rest : List Glyph) :
    runLength Glyph.isDigit rest ≤ (munchDigit rest).2 := by
  unfold munchDigit
  simp only
  split
  · split
    · simp only
      omega
    · exact Nat.le_refl _
  · exact Nat.le_refl _

/-- Digits behind a digit and digits in front of a point and a digit. -/
theorem length_le_munchDigit {whole fraction more : List Glyph} {point : Glyph}
    (hwhole : ∀ x ∈ whole, x.isDigit = true) (hpoint : point.is '.' = true) (hfraction : IsWhole fraction) :
    (whole ++ point :: fraction).length ≤ (munchDigit (whole ++ point :: fraction ++ more)).2 := by
  obtain ⟨hne, hdigits⟩ := hfraction
  cases fraction with
  | nil => exact absurd rfl hne
  | cons first fraction =>
    obtain ⟨hfirst, hdigits⟩ := List.forall_mem_cons.mp hdigits
    have hrun := length_le_runLength hdigits more
    rw [List.append_assoc, List.cons_append, List.cons_append, munchDigit_decimal hwhole hpoint hfirst]
    simp only [List.length_append, List.length_cons]
    omega

/-- No symbol has more than two characters. -/
theorem Symbol.length_codes_le (s : Symbol) : s.codes.length ≤ 2 := by cases s <;> decide

/-- **No form is longer than what is munched** from its first character on, whatever follows. -/
theorem Kind.Matches.length_le_munch {kind : Kind} {g : Glyph} {body : List Glyph}
    (h : kind.Matches (g :: body)) (more : List Glyph) : body.length ≤ (munch g (body ++ more)).2 := by
  have hword : IsWord (g :: body) → body.length ≤ (munch g (body ++ more)).2 := by
    rintro ⟨first, rest, heq, hfirst, hrest⟩
    obtain ⟨rfl, rfl⟩ := List.cons.inj heq
    rw [munch_word hfirst]
    exact length_le_runLength hrest more
  cases kind with
  | symbol s =>
    have hcodes : s.codes = g.code :: body.map Glyph.code := h.symm
    match body with
    | [] => exact Nat.zero_le _
    | [second] =>
      have hpair : Munched ⟨.symbol s, g, [second]⟩ more := .pair hcodes
      exact (congrArg Prod.snd (munch_of_munched hpair)).ge
    | _ :: _ :: _ =>
      have hlength := s.length_codes_le
      rw [hcodes] at hlength
      simp at hlength
  | identifier => exact hword h
  | keyword k => exact hword h
  | integer =>
    obtain ⟨hg, hbody⟩ := List.forall_mem_cons.mp h.2
    rw [munch_digit hg]
    exact (length_le_runLength hbody more).trans (runLength_le_munchDigit _)
  | float =>
    obtain ⟨whole, point, fraction, heq, ⟨hne, hwhole⟩, hpoint, hfraction⟩ := h
    cases whole with
    | nil => exact absurd rfl hne
    | cons first whole =>
      obtain ⟨rfl, rfl⟩ := List.cons.inj heq
      obtain ⟨hg, hwhole⟩ := List.forall_mem_cons.mp hwhole
      rw [munch_digit hg]
      exact length_le_munchDigit hwhole hpoint hfraction
  | string =>
    obtain ⟨first, inner, last, heq, hfirst, hinner, hlast⟩ := h
    obtain ⟨rfl, rfl⟩ := List.cons.inj heq
    have hquoted : Munched ⟨.string, g, inner ++ [last]⟩ more := .string hfirst hinner hlast
    exact (congrArg Prod.snd (munch_of_munched hquoted)).ge
  | endOfInput => exact h.elim

/-- Nothing longer than a piece belongs to a form where the piece stands. -/
theorem Munched.longest {p : Piece} {follow : List Glyph} (h : Munched p follow) :
    Longest p.lexeme (p.lexeme ++ follow) := by
  rintro longer ⟨more, hlonger⟩ hlength kind hmatches
  cases longer with
  | nil => cases hlength
  | cons g body =>
    -- it starts where the piece starts, so munching takes at least all of it
    obtain ⟨rfl, hbody⟩ : g = p.head ∧ body ++ more = p.tail ++ follow := List.cons.inj hlonger
    have hle := hmatches.length_le_munch more
    rw [hbody, munch_of_munched h] at hle
    exact absurd hlength (Nat.not_lt.mpr (Nat.succ_le_succ hle))

/-! ## The form of a piece is the form of its kind -/

namespace Munched

variable {p : Piece} {follow : List Glyph}

theorem codes_eq (h : Munched p follow) {s : Symbol} (hform : p.form = .symbol s) :
    p.lexeme.map Glyph.code = s.codes := by
  cases h with
  | pair hcodes => cases hform; exact hcodes.symm
  | single hcodes => cases hform; exact hcodes.symm
  | _ => cases hform

theorem isWord (h : Munched p follow) (hform : p.form = .word) : IsWord p.lexeme := by
  cases h with
  | word hg hbody => exact ⟨_, _, rfl, hg, hbody⟩
  | _ => cases hform

theorem isWhole (h : Munched p follow) (hform : p.form = .integer) : IsWhole p.lexeme := by
  cases h with
  | integer hg hbody => exact ⟨List.cons_ne_nil _ _, List.forall_mem_cons.mpr ⟨hg, hbody⟩⟩
  | _ => cases hform

theorem isDecimal (h : Munched p follow) (hform : p.form = .decimal) : IsDecimal p.lexeme := by
  cases h with
  | decimal hg hwhole hpoint hfirst hfraction =>
    exact ⟨_ :: _, _, _ :: _, rfl,
      ⟨List.cons_ne_nil _ _, List.forall_mem_cons.mpr ⟨hg, hwhole⟩⟩, hpoint,
      ⟨List.cons_ne_nil _ _, List.forall_mem_cons.mpr ⟨hfirst, hfraction⟩⟩⟩
  | _ => cases hform

theorem isQuoted (h : Munched p follow) (hform : p.form = .string) : IsQuoted p.lexeme := by
  cases h with
  | string hg hbody hclose => exact ⟨_, _, _, rfl, hg, hbody, hclose⟩
  | _ => cases hform

/-- The lexeme of a token has the form of its kind. -/
theorem matches_of_reading (h : Munched p follow) {kind : Kind} {payload : Payload}
    (hreading : p.reading = .token kind payload) : kind.Matches p.lexeme := by
  rcases Piece.reading_eq_token hreading with ⟨s, hform, rfl, -⟩ | ⟨hform, ⟨k, rfl, -⟩ | ⟨rfl, -⟩⟩ |
    ⟨hform, rfl, -⟩ | ⟨hform, rfl, -⟩ | ⟨hform, rfl, -⟩
  · exact h.codes_eq hform
  · exact h.isWord hform
  · exact h.isWord hform
  · exact h.isWhole hform
  · exact h.isDecimal hform
  · exact h.isQuoted hform

/-- Where a word starts, the piece is a word. -/
theorem form_of_isWord (h : Munched p follow) (hword : IsWord p.lexeme) : p.form = .word := by
  obtain ⟨first, body, heq, hfirst, -⟩ := hword
  obtain ⟨rfl, -⟩ := List.cons.inj heq
  have hmunch := munch_of_munched h
  rw [munch_word hfirst] at hmunch
  exact (congrArg Prod.fst hmunch).symm

/-- A slash that is a symbol opens no comment. -/
theorem head?_of_slash (h : Munched p follow) (hform : p.form = .symbol .slash) :
    ∀ x ∈ follow.head?, x.is '/' = false ∧ x.is '*' = false := by
  cases h with
  | single _ _ hcomment =>
    cases hform
    exact hcomment rfl
  | pair hcodes =>
    cases hform
    have hlength : Symbol.slash.codes.length = 2 := congrArg List.length hcodes
    exact absurd hlength (by decide)
  | _ => cases hform

/-- A stray character stands alone, and nothing starts with it. -/
theorem stray_starts_nothing (h : Munched p follow) (hform : p.form = .stray) :
    p.lexeme = [p.head] ∧ p.head.isBlank = false ∧ p.head.is '/' = false ∧
      ∀ (kind : Kind) (body : List Glyph), ¬ kind.Matches (p.head :: body) := by
  cases h with
  | @stray g _ hblank hword hdigit hquote hsymbol =>
    have hslash : g.is '/' = false := by
      rw [← Bool.not_eq_true, Glyph.is_iff]
      intro hcode
      exact hsymbol .slash (by rw [hcode]; rfl)
    have hnoWord : ∀ body, ¬ IsWord (g :: body) := by
      rintro body ⟨first, rest, heq, hfirst, -⟩
      obtain ⟨rfl, -⟩ := List.cons.inj heq
      exact absurd hfirst (Bool.eq_false_iff.mp hword)
    refine ⟨rfl, hblank, hslash, ?_⟩
    intro kind body hmatches
    cases kind with
    | symbol s =>
      -- the first character of a symbol would be a symbol by itself
      have hcodes : s.codes = g.code :: body.map Glyph.code := hmatches.symm
      obtain ⟨t, ht⟩ := Symbol.exists_single hcodes
      exact hsymbol t ht
    | identifier => exact hnoWord body hmatches
    | keyword k => exact hnoWord body hmatches
    | integer =>
      have hg := (List.forall_mem_cons.mp hmatches.2).1
      exact absurd hg (Bool.eq_false_iff.mp hdigit)
    | float =>
      obtain ⟨whole, point, fraction, heq, ⟨hne, hwhole⟩, -⟩ := hmatches
      cases whole with
      | nil => exact hne rfl
      | cons first whole =>
        obtain ⟨rfl, -⟩ := List.cons.inj heq
        exact absurd (List.forall_mem_cons.mp hwhole).1 (Bool.eq_false_iff.mp hdigit)
    | string =>
      obtain ⟨first, inner, last, heq, hfirst, -⟩ := hmatches
      obtain ⟨rfl, -⟩ := List.cons.inj heq
      exact absurd hfirst (Bool.eq_false_iff.mp hquote)
    | endOfInput => exact hmatches
  | _ => cases hform

end Munched

/-- Reserved words are looked up by their bytes, and all other words are identifiers. -/
theorem Kind.ofWord_iff (word : Bytes) : (∀ k, ofWord word = .keyword k ↔ word = k.spelling) ∧
    (ofWord word = .identifier ↔ ∀ k : Keyword, word ≠ k.spelling) := by
  have hlookUp : ∀ k, Keyword.ofBytes? word = some k ↔ word = k.spelling := by
    intro k
    rw [Keyword.ofBytes?_eq_some_iff, eq_comm]
  unfold ofWord
  cases hfound : Keyword.ofBytes? word with
  | none =>
    have hnot : ∀ k : Keyword, word ≠ k.spelling := by
      intro k hk
      rw [(hlookUp k).mpr hk] at hfound
      cases hfound
    simp [hnot]
  | some j =>
    have hword := (hlookUp j).mp hfound
    constructor
    · intro k
      rw [← hlookUp k, hfound]
      simp
    · simp only [reduceCtorEq, false_iff, not_forall, not_not]
      exact ⟨j, hword⟩

/-! ## Scans -/

/-- The characters of a piece stand at its span. -/
theorem Placed.spanReads {source : Bytes} {placed : Placed} {rest : List Glyph}
    (h : decode (source.drop placed.offset) = placed.piece.lexeme ++ rest) :
    SpanReads source placed.span placed.piece.lexeme rest := ⟨h, rfl⟩

/-- **Scanning takes the longest token, and classifies it by its lexeme.** -/
theorem scan_classification (source : Bytes) : Classification source (scan source) := by
  constructor
  · intro t ht
    rw [properTokens_scan] at ht
    obtain ⟨placed, hmem, htoken⟩ := List.mem_filterMap.mp ht
    obtain ⟨hreading, hspan⟩ := Placed.token?_eq_some.mp htoken
    obtain ⟨rest, hdecode, hmunched⟩ := munched_of_mem_placedPieces hmem
    refine ⟨placed.piece.lexeme, rest, ?_, hmunched.matches_of_reading hreading, hmunched.longest,
      ?_, ?_⟩
    · rw [hspan]
      exact Placed.spanReads hdecode
    · intro hword
      rw [Piece.kind_of_word (hmunched.form_of_isWord hword) hreading]
      exact Kind.ofWord_iff placed.piece.bytes
    · intro hslash
      rw [hslash] at hreading
      apply hmunched.head?_of_slash
      rcases Piece.reading_eq_token hreading with ⟨s, hform, hs, -⟩ | ⟨-, ⟨k, hs, -⟩ | ⟨hs, -⟩⟩ |
        ⟨-, hs, -⟩ | ⟨-, hs, -⟩ | ⟨-, hs, -⟩
      · cases hs
        exact hform
      all_goals cases hs
  · intro e he text hfault
    obtain ⟨placed, hmem, herror⟩ := List.mem_filterMap.mp he
    obtain ⟨hreading, hspan⟩ := Placed.error?_eq_some.mp herror
    obtain ⟨rest, hdecode, hmunched⟩ := munched_of_mem_placedPieces hmem
    refine ⟨placed.piece.lexeme, rest, ?_, ?_, hmunched.longest⟩
    · rw [hspan]
      exact Placed.spanReads hdecode
    · rcases Piece.reading_eq_faulty hreading with ⟨-, hf⟩ | ⟨-, hf⟩ | ⟨-, hf⟩ | ⟨hform, -⟩ | ⟨hform, -⟩
      · simp [hf] at hfault
      · simp [hf] at hfault
      · simp [hf] at hfault
      · exact Or.inl (hmunched.isWhole hform)
      · exact Or.inr (hmunched.isDecimal hform)
  · intro e he text hfault
    obtain ⟨placed, hmem, herror⟩ := List.mem_filterMap.mp he
    obtain ⟨hreading, hspan⟩ := Placed.error?_eq_some.mp herror
    obtain ⟨rest, hdecode, hmunched⟩ := munched_of_mem_placedPieces hmem
    have hform : placed.piece.form = .stray := by
      rcases Piece.reading_eq_faulty hreading with ⟨hform, -⟩ | ⟨-, hf⟩ | ⟨-, hf⟩ | ⟨-, hf⟩ | ⟨-, hf⟩
      · exact hform
      all_goals simp [hf] at hfault
    obtain ⟨hlexeme, hblank, hslash, hnothing⟩ := hmunched.stray_starts_nothing hform
    refine ⟨placed.piece.head, rest, ?_, hblank, hslash, hnothing⟩
    rw [hspan, ← hlexeme]
    exact Placed.spanReads hdecode

end LoxLexer
