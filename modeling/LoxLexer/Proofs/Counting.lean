import LoxLexer.Piece.Form
import Mathlib.Data.List.Chain
import Mathlib.Data.List.TakeWhile

/-!
# `LoxLexer.Proofs.Counting` — what the measures of a piece count

`munch` measures a piece by the class of its first character, by the table of symbols and by three counting
functions. This module says what each of them finds, so that no later proof opens them.

## Contents
- Character classes as ranges of numbers (`Glyph.isBlank_iff` and its neighbours), and that no blank is
  anything else.
- The characters of symbols: a symbol has one character or two, the second is `=`, and the first is a
  symbol by itself.
- `runLength_append`, `lengthThrough?_eq_some_iff`, `lengthThroughClose?_eq_some_iff` — the counting
  functions; `NoClose` is a text without `*/`.
-/

namespace LoxLexer

/-! ## Character classes as ranges of numbers -/

namespace Glyph

theorem is_iff {g : Glyph} {c : Char} : g.is c = true ↔ g.code = c.toNat := by
  simp [Glyph.is]

/-- A character is one character only. -/
theorem is_of_is {g : Glyph} {c d : Char} (h : g.is c = true) (hne : c.toNat ≠ d.toNat) :
    g.is d = false := by
  rw [← Bool.not_eq_true, is_iff, is_iff.mp h]
  exact hne

theorem isBlank_iff {g : Glyph} :
    g.isBlank = true ↔ g.code = 32 ∨ g.code = 13 ∨ g.code = 9 ∨ g.code = 10 := by
  simp [isBlank, CodePoint.isBlank, or_assoc]

theorem isDigit_iff {g : Glyph} : g.isDigit = true ↔ 48 ≤ g.code ∧ g.code ≤ 57 := by
  simp [isDigit, CodePoint.isDigit]

theorem isWordStart_iff {g : Glyph} : g.isWordStart = true ↔
    (97 ≤ g.code ∧ g.code ≤ 122) ∨ (65 ≤ g.code ∧ g.code ≤ 90) ∨ g.code = 95 := by
  simp [isWordStart, CodePoint.isWordStart, or_assoc]

theorem isWordPart_iff {g : Glyph} : g.isWordPart = true ↔ g.isWordStart = true ∨ g.isDigit = true := by
  simp [isWordPart, isWordStart, isDigit, CodePoint.isWordPart]

/-- No blank is a word character. -/
theorem isWordPart_of_isBlank {g : Glyph} (h : g.isBlank = true) : g.isWordPart = false := by
  rw [← Bool.not_eq_true, isWordPart_iff, isWordStart_iff, isDigit_iff]
  rw [isBlank_iff] at h
  -- `omega` must see that code points are numbers
  unfold CodePoint at *
  omega

/-- No blank is a digit. -/
theorem isDigit_of_isBlank {g : Glyph} (h : g.isBlank = true) : g.isDigit = false := by
  rw [← Bool.not_eq_true, isDigit_iff]
  rw [isBlank_iff] at h
  unfold CodePoint at *
  omega

/-- A blank is none of the visible characters below 0x80. -/
theorem is_of_isBlank {g : Glyph} {c : Char} (h : g.isBlank = true) (hc : 32 < c.toNat) :
    g.is c = false := by
  rw [← Bool.not_eq_true, is_iff]
  rw [isBlank_iff] at h
  unfold CodePoint at *
  omega

/-- A word character is none of the characters below the digits. -/
theorem is_of_isWordPart {g : Glyph} {c : Char} (h : g.isWordPart = true) (hc : c.toNat < 48) :
    g.is c = false := by
  rw [← Bool.not_eq_true, is_iff]
  rw [isWordPart_iff, isWordStart_iff, isDigit_iff] at h
  unfold CodePoint at *
  omega

end Glyph

/-! ## The characters of symbols -/

/-- The first character of a symbol is one of sixteen. -/
theorem Symbol.head_codes {s : Symbol} {c : CodePoint} {rest : List CodePoint}
    (h : s.codes = c :: rest) :
    c ∈ [40, 41, 123, 125, 58, 44, 46, 45, 43, 59, 47, 42, 33, 61, 62, 60] := by
  cases s <;> cases h <;> decide

/-- Every first character of a symbol is a symbol by itself. -/
theorem Symbol.exists_single {s : Symbol} {c : CodePoint} {rest : List CodePoint}
    (h : s.codes = c :: rest) : ∃ t : Symbol, t.codes = [c] := by
  have hmem : ∀ c ∈ [40, 41, 123, 125, 58, 44, 46, 45, 43, 59, 47, 42, 33, 61, 62, 60],
      ∃ t ∈ Symbol.all, t.codes = [c] := by decide
  obtain ⟨t, _, ht⟩ := hmem c (head_codes h)
  exact ⟨t, ht⟩

/-- The second character of a symbol is `=`, and the first one is no slash. -/
theorem Symbol.pair_codes {s : Symbol} {c d : CodePoint} (h : s.codes = [c, d]) : d = 61 ∧ c ≠ 47 := by
  cases s <;> cases h <;> decide

theorem Symbol.ofCodes?_eq_none_iff {codes : List CodePoint} :
    Symbol.ofCodes? codes = none ↔ ∀ s : Symbol, s.codes ≠ codes := by
  rw [Option.eq_none_iff_forall_not_mem]
  exact ⟨fun h s hs => h s (ofCodes?_eq_some_iff.mpr hs),
    fun h s hs => h s (ofCodes?_eq_some_iff.mp hs)⟩

/-! ## What the counting functions find -/

/-- A run ends where the property does. -/
theorem runLength_append {p : Glyph → Bool} {body follow : List Glyph} (hbody : ∀ x ∈ body, p x = true)
    (hfollow : ∀ x ∈ follow.head?, p x = false) : runLength p (body ++ follow) = body.length := by
  have hstop : follow.takeWhile p = [] := by
    cases follow with
    | nil => rfl
    | cons x rest => rw [List.takeWhile_cons, hfollow x rfl, if_neg Bool.false_ne_true]
  rw [runLength, List.takeWhile_append_of_pos hbody, hstop, List.append_nil]

/-- Every text is a run and then a text that does not continue it. -/
theorem exists_run (p : Glyph → Bool) (glyphs : List Glyph) : ∃ body follow,
    glyphs = body ++ follow ∧ (∀ x ∈ body, p x = true) ∧ (∀ x ∈ follow.head?, p x = false) := by
  refine ⟨glyphs.takeWhile p, glyphs.dropWhile p, List.takeWhile_append_dropWhile.symm, ?_, ?_⟩
  · intro x hx
    exact List.mem_takeWhile_imp hx
  · intro x hx
    have hhead := List.head?_dropWhile_not p glyphs
    rw [Option.mem_def.mp hx] at hhead
    exact hhead

/-- The character counted last is the first of its kind. -/
theorem lengthThrough?_eq_some_iff {c : Char} {glyphs : List Glyph} {n : Nat} :
    lengthThrough? c glyphs = some n ↔ ∃ body close rest, glyphs = body ++ close :: rest ∧
      (∀ x ∈ body, x.is c = false) ∧ close.is c = true ∧ n = body.length + 1 := by
  constructor
  · intro h
    fun_induction lengthThrough? c glyphs generalizing n with
    | case1 => cases h
    | case2 g rest hg =>
      cases h
      exact ⟨[], g, rest, rfl, by simp, hg, rfl⟩
    | case3 g rest hg ih =>
      obtain ⟨m, hm, rfl⟩ := Option.map_eq_some_iff.mp h
      obtain ⟨body, close, more, rfl, hbody, hclose, rfl⟩ := ih hm
      exact ⟨g :: body, close, more, rfl,
        List.forall_mem_cons.mpr ⟨Bool.eq_false_iff.mpr hg, hbody⟩, hclose, rfl⟩
  · rintro ⟨body, close, rest, rfl, hbody, hclose, rfl⟩
    induction body with
    | nil => simp [lengthThrough?, hclose]
    | cons g body ih =>
      obtain ⟨hg, hbody⟩ := List.forall_mem_cons.mp hbody
      rw [List.cons_append, lengthThrough?, hg, if_neg Bool.false_ne_true, ih hbody]
      rfl

theorem lengthThrough?_eq_none_iff {c : Char} {glyphs : List Glyph} :
    lengthThrough? c glyphs = none ↔ ∀ x ∈ glyphs, x.is c = false := by
  fun_induction lengthThrough? c glyphs with
  | case1 => simp
  | case2 g rest hg => simp [hg]
  | case3 g rest hg ih => simp [hg, ih]

/-- Nowhere a star directly before a slash: no `*/` closes a comment here. -/
def NoClose (glyphs : List Glyph) : Prop :=
  glyphs.IsChain fun first second => (first.is '*' && second.is '/') = false

/-- The `*/` counted last is the first one. -/
theorem lengthThroughClose?_eq_some_iff {glyphs : List Glyph} {n : Nat} :
    lengthThroughClose? glyphs = some n ↔ ∃ body star slash rest,
      glyphs = body ++ star :: slash :: rest ∧ NoClose (body ++ [star]) ∧ star.is '*' = true ∧
        slash.is '/' = true ∧ n = body.length + 2 := by
  constructor
  · intro h
    fun_induction lengthThroughClose? glyphs generalizing n with
    | case1 => cases h
    | case2 => cases h
    | case3 first second rest hclose =>
      cases h
      rw [Bool.and_eq_true] at hclose
      exact ⟨[], first, second, rest, rfl, .singleton _, hclose.1, hclose.2, rfl⟩
    | case4 first second rest hclose ih =>
      obtain ⟨m, hm, rfl⟩ := Option.map_eq_some_iff.mp h
      obtain ⟨body, star, slash, more, heq, hbody, hstar, hslash, rfl⟩ := ih hm
      refine ⟨first :: body, star, slash, more, by rw [heq]; rfl, ?_, hstar, hslash, rfl⟩
      have hfirst : (first.is '*' && second.is '/') = false := Bool.eq_false_iff.mpr hclose
      cases body with
      | nil =>
        have hsecond : second = star := (List.cons.inj heq).1
        subst hsecond
        exact List.isChain_cons_cons.mpr ⟨hfirst, .singleton _⟩
      | cons g body =>
        have hsecond : second = g := (List.cons.inj heq).1
        subst hsecond
        exact List.isChain_cons_cons.mpr ⟨hfirst, hbody⟩
  · rintro ⟨body, star, slash, rest, rfl, hbody, hstar, hslash, rfl⟩
    induction body with
    | nil => simp [lengthThroughClose?, hstar, hslash]
    | cons g body ih =>
      -- the second character is the next of the body, or the star where the body has no more
      obtain ⟨second, more, hmore⟩ : ∃ second more, body ++ [star] = second :: more := by
        cases body with
        | nil => exact ⟨star, [], rfl⟩
        | cons x body => exact ⟨x, body ++ [star], rfl⟩
      rw [List.cons_append, hmore] at hbody
      obtain ⟨hg, hrest⟩ := List.isChain_cons_cons.mp hbody
      have hlength := ih (by rw [hmore]; exact hrest)
      have hsplit : ∀ tail, body ++ star :: tail = second :: (more ++ tail) := by
        intro tail
        rw [← List.cons_append, ← hmore, List.append_assoc, List.singleton_append]
      rw [hsplit] at hlength
      rw [List.cons_append, hsplit, lengthThroughClose?, if_neg (by rw [hg]; exact Bool.false_ne_true),
        hlength]
      rfl

theorem lengthThroughClose?_eq_none_iff {glyphs : List Glyph} :
    lengthThroughClose? glyphs = none ↔ NoClose glyphs := by
  fun_induction lengthThroughClose? glyphs with
  | case1 => simp [NoClose]
  | case2 => simp [NoClose]
  | case3 first second rest hclose =>
    rw [NoClose, List.isChain_cons_cons, hclose]
    simp
  | case4 first second rest hclose ih =>
    rw [Option.map_eq_none_iff, ih, NoClose, NoClose, List.isChain_cons_cons]
    exact ⟨fun h => ⟨Bool.eq_false_iff.mpr hclose, h⟩, fun h => h.2⟩

end LoxLexer
