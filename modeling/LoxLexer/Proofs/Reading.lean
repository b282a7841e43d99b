import LoxLexer.Proofs.Munching

/-!
# `LoxLexer.Proofs.Reading` — which pieces are skipped, tokens or faulty

`Piece.reading` gives a piece its meaning by its shape and its bytes. Here the shape is read off the meaning.

## Contents
- `Piece.reading_eq_skipped_iff` — blanks and finished comments are skipped, and nothing else.
- `Piece.reading_eq_token` — a token is a symbol, a word, a number or a string, with the payload that
  belongs to it, and `Piece.reading_eq_faulty` is the same for faults. `Piece.reading_eq_string` and the
  two after it are its cases for strings and numbers. The kind of a word is looked up
  (`Piece.kind_of_word`), and no piece is an end-of-input token (`Piece.kind_ne_endOfInput`).
- `Piece.isToken`, and what munching says of such pieces: they are closed, and their first character is
  not U+FFFD.
-/

namespace LoxLexer

theorem stringContent_cons_concat (a z : UInt8) (content : Bytes) :
    stringContent (a :: (content ++ [z])) = content := by
  simp [stringContent]

namespace Piece

variable {p : Piece}

/-- Only words are read further, and never as anything but a token. -/
theorem exists_readWord (word : Bytes) : ∃ kind payload, readWord word = .token kind payload ∧
    ((∃ k, kind = .keyword k ∧ payload = .empty) ∨ (kind = .identifier ∧ payload = .text word)) := by
  cases h : Keyword.ofBytes? word with
  | none =>
    have hkind : Kind.ofWord word = .identifier := by rw [Kind.ofWord, h]
    exact ⟨.identifier, .text word, by rw [readWord, hkind], Or.inr ⟨rfl, rfl⟩⟩
  | some k =>
    have hkind : Kind.ofWord word = .keyword k := by rw [Kind.ofWord, h]
    exact ⟨.keyword k, .empty, by rw [readWord, hkind], Or.inl ⟨k, rfl, rfl⟩⟩

/-- **What a token can be**, by the shape of its piece. -/
theorem reading_eq_token {kind : Kind} {payload : Payload} (h : p.reading = .token kind payload) :
    (∃ s, p.form = .symbol s ∧ kind = .symbol s ∧ payload = .empty) ∨
    (p.form = .word ∧ ((∃ k, kind = .keyword k ∧ payload = .empty) ∨
      (kind = .identifier ∧ payload = .text p.bytes))) ∨
    (p.form = .integer ∧ kind = .integer ∧
      ∃ n, Number.integer? p.bytes = some n ∧ payload = .integer n) ∨
    (p.form = .decimal ∧ kind = .float ∧
      ∃ x, Number.float? p.bytes = some x ∧ payload = .float x) ∨
    (p.form = .string ∧ kind = .string ∧ payload = .text (stringContent p.bytes)) := by
  unfold reading at h
  cases hform : p.form with
  | blank => simp [hform] at h
  | lineComment => simp [hform] at h
  | blockComment => simp [hform] at h
  | openComment => simp [hform] at h
  | openString => simp [hform] at h
  | stray => simp [hform] at h
  | symbol s =>
    simp only [hform, Reading.token.injEq] at h
    exact Or.inl ⟨s, rfl, h.1.symm, h.2.symm⟩
  | word =>
    obtain ⟨kind', payload', hread, hcases⟩ := exists_readWord p.bytes
    simp only [hform, hread, Reading.token.injEq] at h
    obtain ⟨rfl, rfl⟩ := h
    exact Or.inr (Or.inl ⟨rfl, hcases⟩)
  | integer =>
    cases hvalue : Number.integer? p.bytes with
    | none => simp [hform, hvalue] at h
    | some n =>
      simp only [hform, hvalue, Reading.token.injEq] at h
      exact Or.inr (Or.inr (Or.inl ⟨rfl, h.1.symm, n, rfl, h.2.symm⟩))
  | decimal =>
    cases hvalue : Number.float? p.bytes with
    | none => simp [hform, hvalue] at h
    | some x =>
      simp only [hform, hvalue, Reading.token.injEq] at h
      exact Or.inr (Or.inr (Or.inr (Or.inl ⟨rfl, h.1.symm, x, rfl, h.2.symm⟩)))
  | string =>
    simp only [hform, Reading.token.injEq] at h
    exact Or.inr (Or.inr (Or.inr (Or.inr ⟨rfl, h.1.symm, h.2.symm⟩)))

theorem reading_eq_string {payload : Payload} (h : p.reading = .token .string payload) :
    p.form = .string ∧ payload = .text (stringContent p.bytes) := by
  simpa using reading_eq_token h

theorem reading_eq_integer {payload : Payload} (h : p.reading = .token .integer payload) :
    p.form = .integer ∧ ∃ n, Number.integer? p.bytes = some n ∧ payload = .integer n := by
  simpa using reading_eq_token h

theorem reading_eq_float {payload : Payload} (h : p.reading = .token .float payload) :
    p.form = .decimal ∧ ∃ x, Number.float? p.bytes = some x ∧ payload = .float x := by
  simpa using reading_eq_token h

/-- **What a fault can be**, by the shape of its piece. -/
theorem reading_eq_faulty {fault : Fault} (h : p.reading = .faulty fault) :
    (p.form = .stray ∧ fault = .unexpectedCharacter p.bytes) ∨
    (p.form = .openString ∧ fault = .unterminatedString) ∨
    (p.form = .openComment ∧ fault = .unterminatedComment) ∨
    (p.form = .integer ∧ fault = .unreadableInteger p.bytes) ∨
    (p.form = .decimal ∧ fault = .unreadableFloat p.bytes) := by
  unfold reading at h
  cases hform : p.form with
  | word =>
    obtain ⟨kind, payload, hread, -⟩ := exists_readWord p.bytes
    simp [hform, hread] at h
  | integer =>
    cases hvalue : Number.integer? p.bytes with
    | none => simpa [hform, hvalue, eq_comm] using h
    | some n => simp [hform, hvalue] at h
  | decimal =>
    cases hvalue : Number.float? p.bytes with
    | none => simpa [hform, hvalue, eq_comm] using h
    | some x => simp [hform, hvalue] at h
  | openString => simpa [hform, eq_comm] using h
  | openComment => simpa [hform, eq_comm] using h
  | stray => simpa [hform, eq_comm] using h
  | _ => simp [hform] at h

/-- The kind of a word is looked up by its bytes. -/
theorem kind_of_word {kind : Kind} {payload : Payload} (hform : p.form = .word)
    (h : p.reading = .token kind payload) : kind = Kind.ofWord p.bytes := by
  have hread : p.reading = readWord p.bytes := by
    unfold reading
    rw [hform]
  rw [hread, readWord] at h
  split at h
  · rename_i hkind
    rw [hkind]
    exact (Reading.token.inj h).1.symm
  · exact (Reading.token.inj h).1.symm

/-- Blanks and finished comments are skipped, and nothing else is. -/
theorem reading_eq_skipped_iff :
    p.reading = .skipped ↔ p.form = .blank ∨ p.form = .lineComment ∨ p.form = .blockComment := by
  unfold reading
  cases hform : p.form with
  | word =>
    obtain ⟨kind, payload, hread, -⟩ := exists_readWord p.bytes
    simp [hread]
  | integer => cases hvalue : Number.integer? p.bytes <;> simp
  | decimal => cases hvalue : Number.float? p.bytes <;> simp
  | _ => simp

/-- No piece ends the input. -/
theorem kind_ne_endOfInput {kind : Kind} {payload : Payload} (h : p.reading = .token kind payload) :
    kind ≠ .endOfInput := by
  rcases reading_eq_token h with ⟨s, -, rfl, -⟩ | ⟨-, ⟨k, rfl, -⟩ | ⟨rfl, -⟩⟩ | ⟨-, rfl, -⟩ |
    ⟨-, rfl, -⟩ | ⟨-, rfl, -⟩ <;> simp

/-- The piece is a token. -/
def isToken (p : Piece) : Bool :=
  match p.reading with
  | .token _ _ => true
  | _ => false

theorem isToken_iff : p.isToken = true ↔ ∃ kind payload, p.reading = .token kind payload := by
  cases h : p.reading <;> simp [isToken, h]

/-- A token is not cut short by the end of the text. -/
theorem isUnclosed_of_isToken (h : p.isToken = true) : p.isUnclosed = false := by
  obtain ⟨kind, payload, hreading⟩ := isToken_iff.mp h
  rcases reading_eq_token hreading with ⟨s, hform, -⟩ | ⟨hform, -⟩ | ⟨hform, -⟩ | ⟨hform, -⟩ |
    ⟨hform, -⟩ <;> simp [isUnclosed, hform]

/-- A token starts with a character of the language, and U+FFFD is none. -/
theorem head_code_ne_replacement {follow : List Glyph} (hmunched : Munched p follow)
    (h : p.isToken = true) : p.head.code ≠ CodePoint.replacement := by
  have hstray : p.form ≠ .stray := by
    intro hform
    obtain ⟨kind, payload, hreading⟩ := isToken_iff.mp h
    simp [reading, hform] at hreading
  have hlt := hmunched.head_code_lt hstray
  intro hcode
  rw [hcode] at hlt
  revert hlt
  decide

end Piece

end LoxLexer
