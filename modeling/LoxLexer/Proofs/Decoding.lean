import LoxLexer.Glyph

/-!
# `LoxLexer.Proofs.Decoding` — when decoding sees a text in parts

Decoding a text gives characters; spelling those characters gives the text back (`spell_decode`). The other
way round needs care: a list of characters may spell bytes that decode differently, because continuation
bytes after a broken sequence can complete it. This module says which lists of characters are safe.

## Contents
- `Decoded` — the characters are what their own bytes decode to. Every decoded text is (`decoded_decode`),
  and so is each part of such a list (`Decoded.of_append_left`, `Decoded.of_append_right`).
- `StartsAfresh` — a text that no sequence before it can run into. `Decoded.append` puts two decoded
  lists together where the second starts afresh; `decode_spell_append` is the same for any text behind.
- `StartsAfresh.of_code` — a character other than U+FFFD starts afresh, so a broken sequence in front of
  a token stays broken whatever becomes of the text around it.
-/

namespace LoxLexer

/-! ## The bytes taken with a lead byte -/

/-- The text is empty or its first byte continues no sequence. -/
def StartsAfresh (text : Bytes) : Prop := ∀ b ∈ text.head?, isTrailing b = false

theorem startsAfresh_nil : StartsAfresh [] := by
  intro b hb
  cases hb

theorem startsAfresh_cons {b : UInt8} {rest : Bytes} (h : isTrailing b = false) :
    StartsAfresh (b :: rest) := by
  intro x hx
  cases hx
  exact h

namespace Glyph

/-- What a lead byte takes is all that it announces, or nothing. -/
theorem trail_eq_or (lead : UInt8) (rest : Bytes) :
    (trail lead rest = rest.take (continuations lead) ∧ continuations lead ≤ rest.length ∧
        (rest.take (continuations lead)).all isTrailing = true) ∨
      trail lead rest = [] := by
  simp only [trail]
  split
  · rename_i h
    refine Or.inl ⟨rfl, ?_, h.2⟩
    have hlength := h.1
    rw [List.length_take] at hlength
    omega
  · exact Or.inr rfl

theorem isTrailing_of_mem_trail {lead : UInt8} {rest : Bytes} {b : UInt8} (h : b ∈ trail lead rest) :
    isTrailing b = true := by
  rcases trail_eq_or lead rest with ⟨heq, -, hall⟩ | hnil
  · rw [heq] at h
    exact List.all_eq_true.mp hall b h
  · rw [hnil] at h
    cases h

/-- All announced bytes are taken where they are there and continue the sequence. -/
theorem trail_of_all {lead : UInt8} {rest : Bytes} (hlength : continuations lead ≤ rest.length)
    (hall : (rest.take (continuations lead)).all isTrailing = true) :
    trail lead rest = rest.take (continuations lead) := by
  have htake : (rest.take (continuations lead)).length = continuations lead := by
    rw [List.length_take]
    omega
  simp only [trail, htake, hall, and_self, if_true]

/-- What a lead byte takes does not change when the text after the bytes taken is cut off. -/
theorem trail_of_trail_append {lead : UInt8} {rest more : Bytes}
    (h : (trail lead (rest ++ more)).length ≤ rest.length) :
    trail lead rest = trail lead (rest ++ more) := by
  rcases trail_eq_or lead (rest ++ more) with ⟨heq, hlength, hall⟩ | hnil
  · have hle : continuations lead ≤ rest.length := by
      rw [heq, List.length_take] at h
      omega
    rw [List.take_append_of_le_length hle] at heq hall
    rw [heq, trail_of_all hle hall]
  · rw [hnil]
    rcases trail_eq_or lead rest with ⟨heq, hlength, hall⟩ | hnil'
    · -- the announced bytes are there already, so they would have been taken before `more` as well
      have hmore : trail lead (rest ++ more) = rest.take (continuations lead) := by
        rw [trail_of_all (by rw [List.length_append]; omega)
          (by rw [List.take_append_of_le_length hlength]; exact hall),
          List.take_append_of_le_length hlength]
      rw [heq, ← hmore, hnil]
    · exact hnil'

/-- No lead byte takes bytes from a text that starts afresh. -/
theorem trail_append_of_startsAfresh {lead : UInt8} {rest more : Bytes} (h : StartsAfresh more) :
    trail lead (rest ++ more) = trail lead rest := by
  refine (trail_of_trail_append ?_).symm
  rcases trail_eq_or lead (rest ++ more) with ⟨heq, hlength, hall⟩ | hnil
  · rw [heq, List.length_take]
    by_cases hle : continuations lead ≤ rest.length
    · omega
    · cases more with
      | nil => simp only [List.append_nil] at hlength; omega
      | cons b more =>
        -- the announced bytes reach beyond `rest`, and the first of them does not continue
        have hsplit : (rest ++ b :: more).take (continuations lead) =
            rest ++ b :: more.take (continuations lead - rest.length - 1) := by
          rw [List.take_append, List.take_of_length_le (by omega)]
          obtain ⟨n, hn⟩ : ∃ n, continuations lead - rest.length = n + 1 :=
            ⟨continuations lead - rest.length - 1, by omega⟩
          rw [hn, List.take_succ_cons, Nat.add_sub_cancel]
        have hb : isTrailing b = false := h b rfl
        rw [hsplit] at hall
        simp [hb] at hall
  · rw [hnil]
    exact Nat.zero_le _

/-- A character that takes no bytes with it, where none are announced. -/
theorem trail_of_continuations_eq_zero {lead : UInt8} (h : continuations lead = 0) (rest : Bytes) :
    trail lead rest = [] := by
  simp [trail, h]

end Glyph

/-- A byte that continues a sequence announces none. -/
theorem continuations_of_isTrailing {b : UInt8} (h : isTrailing b = true) : continuations b = 0 := by
  have hlt : b < 0xC0 := by
    simp only [isTrailing, Bool.and_eq_true, decide_eq_true_eq] at h
    exact h.2
  simp [continuations, hlt]

/-! ## Lists of characters that decode to themselves -/

/-- The characters are what their own bytes decode to. -/
def Decoded (glyphs : List Glyph) : Prop := decode (spell glyphs) = glyphs

theorem decoded_decode (text : Bytes) : Decoded (decode text) := by
  rw [Decoded, spell_decode]

theorem decoded_nil : Decoded [] := decode_nil

/-- A list is decoded exactly when the first character takes its own bytes and no others with it, and the
    remaining characters are decoded. -/
theorem decoded_cons {g : Glyph} {rest : List Glyph} :
    Decoded (g :: rest) ↔ Glyph.trail g.lead (g.tail ++ spell rest) = g.tail ∧ Decoded rest := by
  have hspell : spell (g :: rest) = g.lead :: (g.tail ++ spell rest) := rfl
  rw [Decoded, hspell, decode_cons, List.cons_eq_cons]
  constructor
  · rintro ⟨hg, hrest⟩
    have htail : Glyph.trail g.lead (g.tail ++ spell rest) = g.tail := congrArg Glyph.tail hg
    rw [htail, List.drop_left] at hrest
    exact ⟨htail, hrest⟩
  · rintro ⟨htail, hrest⟩
    rw [Glyph.ofLead, htail, List.drop_left]
    exact ⟨rfl, hrest⟩

theorem Decoded.of_append_right {left right : List Glyph} (h : Decoded (left ++ right)) :
    Decoded right := by
  induction left with
  | nil => exact h
  | cons g rest ih => exact ih (decoded_cons.mp h).2

theorem Decoded.of_append_left {left right : List Glyph} (h : Decoded (left ++ right)) :
    Decoded left := by
  induction left with
  | nil => exact decoded_nil
  | cons g rest ih =>
    rw [List.cons_append] at h
    obtain ⟨htrail, hrest⟩ := decoded_cons.mp h
    refine decoded_cons.mpr ⟨?_, ih hrest⟩
    rw [spell_append, ← List.append_assoc] at htrail
    have hle : (Glyph.trail g.lead (g.tail ++ spell rest ++ spell right)).length ≤
        (g.tail ++ spell rest).length := by
      rw [htrail, List.length_append]
      exact Nat.le_add_right _ _
    rw [Glyph.trail_of_trail_append hle, htrail]

/-- Two decoded lists make one where the second starts afresh. -/
theorem Decoded.append {left right : List Glyph} (hleft : Decoded left) (hright : Decoded right)
    (hafresh : StartsAfresh (spell right)) : Decoded (left ++ right) := by
  induction left with
  | nil => exact hright
  | cons g rest ih =>
    obtain ⟨htrail, hrest⟩ := decoded_cons.mp hleft
    rw [List.cons_append]
    refine decoded_cons.mpr ⟨?_, ih hrest⟩
    rw [spell_append, ← List.append_assoc, Glyph.trail_append_of_startsAfresh hafresh, htrail]

/-- **Decoding in parts.** The characters of a text are those of a decoded list in front of it, then its
    own, where the text starts afresh. -/
theorem decode_spell_append {glyphs : List Glyph} {text : Bytes} (h : Decoded glyphs)
    (hafresh : StartsAfresh text) : decode (spell glyphs ++ text) = glyphs ++ decode text := by
  have hboth : Decoded (glyphs ++ decode text) :=
    h.append (decoded_decode text) (by rw [spell_decode]; exact hafresh)
  rw [Decoded, spell_append, spell_decode] at hboth
  exact hboth

/-- Single-byte characters below 0x80 can be put in front of any decoded list. -/
theorem Decoded.ascii_cons {b : UInt8} {rest : List Glyph} (hb : b < 0x80) (hrest : Decoded rest) :
    Decoded (⟨b, []⟩ :: rest) := by
  have hzero : continuations b = 0 := by
    have hlt : b < 0xC0 := UInt8.lt_trans hb (by decide)
    simp [continuations, hlt]
  exact decoded_cons.mpr ⟨Glyph.trail_of_continuations_eq_zero hzero _, hrest⟩

/-- An ASCII byte of a decoded character is all of it. -/
theorem Decoded.eq_of_mem_bytes {g : Glyph} {rest : List Glyph} (h : Decoded (g :: rest)) {b : UInt8}
    (hb : b < 0x80) (hmem : b ∈ g.bytes) : g = ⟨b, []⟩ := by
  have htrail := (decoded_cons.mp h).1
  rcases List.mem_cons.mp hmem with rfl | htail
  · have hzero : continuations g.lead = 0 := by
      have hlt : g.lead < 0xC0 := UInt8.lt_trans hb (by decide)
      simp [continuations, hlt]
    rw [Glyph.trail_of_continuations_eq_zero hzero] at htrail
    rw [htrail]
  · rw [← htrail] at htail
    have htrailing := Glyph.isTrailing_of_mem_trail htail
    simp only [isTrailing, Bool.and_eq_true, decide_eq_true_eq] at htrailing
    exact absurd htrailing.1 (UInt8.not_le.mpr hb)

/-- An ASCII byte anywhere in decoded text is a character by itself. -/
theorem Decoded.eq_of_mem {glyphs : List Glyph} (h : Decoded glyphs) {g : Glyph} (hg : g ∈ glyphs)
    {b : UInt8} (hb : b < 0x80) (hmem : b ∈ g.bytes) : g = ⟨b, []⟩ := by
  obtain ⟨before, after, rfl⟩ := List.append_of_mem hg
  exact h.of_append_right.eq_of_mem_bytes hb hmem

/-- A decoded character other than U+FFFD starts afresh: no sequence before it runs into it. -/
theorem StartsAfresh.of_code {g : Glyph} {rest : List Glyph} (h : Decoded (g :: rest))
    (hcode : g.code ≠ CodePoint.replacement) (text : Bytes) : StartsAfresh (g.bytes ++ text) := by
  refine startsAfresh_cons (Bool.eq_false_iff.mpr ?_)
  intro htrailing
  apply hcode
  have htail : g.tail = [] := by
    rw [← (decoded_cons.mp h).1,
      Glyph.trail_of_continuations_eq_zero (continuations_of_isTrailing htrailing)]
  have hhigh : ¬ g.lead < 0x80 := by
    simp only [isTrailing, Bool.and_eq_true, decide_eq_true_eq] at htrailing
    exact UInt8.not_lt.mpr htrailing.1
  simp [Glyph.code, htail, hhigh]

end LoxLexer
