import LoxLexer.Proofs.Lines
import Mathlib.Data.Set.List

/-!
# `LoxLexer.Proofs.Unicode` — texts that are well-formed UTF-8

Decoding goes by the shape of bytes alone and accepts more than Unicode does. On well-formed UTF-8 it is
exact: the bytes of each scalar value are read as one character with its number, whatever stands behind
them. Such a text is therefore a list of characters of this kind, and so is every part of it that is cut
between two characters.

## Contents
- `encode` — the UTF-8 form of scalar values. `Glyph.ofChar` is a scalar value as it is decoded;
  `decode_encode` and `Glyph.code_ofChar` say so.
- `IsUtf8` — well-formed byte strings, and what they are put together from. `isUtf8_iff_decode` is the
  same for the characters decoded.
- `IsUtf8.of_newline` — a newline cuts such a text in two.
-/

namespace LoxLexer

/-! ## Scalar values as characters -/

/-- The UTF-8 form of a list of Unicode scalar values. -/
def encode (chars : List Char) : Bytes := chars.flatMap String.utf8EncodeChar

theorem encode_append (left right : List Char) : encode (left ++ right) = encode left ++ encode right :=
  List.flatMap_append

theorem isTrailing_ofNat {n : Nat} (h : n < 64) : isTrailing (UInt8.ofNat (n + 0x80)) = true := by
  simp only [isTrailing, Bool.and_eq_true, decide_eq_true_eq, UInt8.lt_iff_toNat_lt,
    UInt8.le_iff_toNat_le, UInt8.toNat_ofNat']
  show 128 ≤ (n + 128) % 256 ∧ (n + 128) % 256 < 192
  omega

namespace Glyph

/-- The character whose bytes are the UTF-8 form of a scalar value. -/
def ofChar (c : Char) : Glyph where
  lead := (String.utf8EncodeChar c).head String.utf8EncodeChar_ne_nil
  tail := (String.utf8EncodeChar c).tail

theorem bytes_ofChar (c : Char) : (ofChar c).bytes = String.utf8EncodeChar c :=
  List.cons_head_tail String.utf8EncodeChar_ne_nil

theorem eq_of_bytes_eq {g : Glyph} {lead : UInt8} {tail : List UInt8} (h : g.bytes = lead :: tail) :
    g = ⟨lead, tail⟩ := by
  obtain ⟨hlead, htail⟩ := List.cons.inj h
  rw [← hlead, ← htail]

/-- The four lengths of the UTF-8 form. A lead byte keeps up to five bits of the number, and every byte
    behind it six. -/
theorem ofChar_cases (c : Char) :
    (c.toNat < 0x80 ∧ ofChar c = ⟨UInt8.ofNat c.toNat, []⟩) ∨
    (0x80 ≤ c.toNat ∧ c.toNat < 0x800 ∧
      ofChar c = ⟨UInt8.ofNat (c.toNat / 64 % 32 + 0xC0), [UInt8.ofNat (c.toNat % 64 + 0x80)]⟩) ∨
    (0x800 ≤ c.toNat ∧ c.toNat < 0x10000 ∧
      ofChar c = ⟨UInt8.ofNat (c.toNat / 4096 % 16 + 0xE0),
        [UInt8.ofNat (c.toNat / 64 % 64 + 0x80), UInt8.ofNat (c.toNat % 64 + 0x80)]⟩) ∨
    (0x10000 ≤ c.toNat ∧ c.toNat < 0x110000 ∧
      ofChar c = ⟨UInt8.ofNat (c.toNat / 262144 % 8 + 0xF0),
        [UInt8.ofNat (c.toNat / 4096 % 64 + 0x80), UInt8.ofNat (c.toNat / 64 % 64 + 0x80),
          UInt8.ofNat (c.toNat % 64 + 0x80)]⟩) := by
  have hrange : c.toNat < 0x110000 := by
    have hvalid := c.valid
    simp only [UInt32.isValidChar, Nat.isValidChar] at hvalid
    show c.val.toNat < _
    omega
  have hbytes := bytes_ofChar c
  unfold String.utf8EncodeChar at hbytes
  dsimp only at hbytes
  change _ = if c.toNat ≤ 127 then _ else if c.toNat ≤ 2047 then _ else if c.toNat ≤ 65535 then _ else _
    at hbytes
  split at hbytes
  · exact Or.inl ⟨by omega, eq_of_bytes_eq hbytes⟩
  · split at hbytes
    · exact Or.inr (Or.inl ⟨by omega, by omega, eq_of_bytes_eq hbytes⟩)
    · split at hbytes
      · exact Or.inr (Or.inr (Or.inl ⟨by omega, by omega, eq_of_bytes_eq hbytes⟩))
      · exact Or.inr (Or.inr (Or.inr ⟨by omega, hrange, eq_of_bytes_eq hbytes⟩))

/-- The lead byte announces the bytes behind it. -/
theorem continuations_ofChar (c : Char) : continuations (ofChar c).lead = (ofChar c).tail.length := by
  rcases ofChar_cases c with ⟨hlt, heq⟩ | ⟨hge, hlt, heq⟩ | ⟨hge, hlt, heq⟩ | ⟨hge, hlt, heq⟩ <;>
    rw [heq] <;> simp only [continuations, UInt8.lt_iff_toNat_lt, UInt8.toNat_ofNat', UInt8.reduceToNat,
      List.length_cons, List.length_nil]
  · rw [if_pos (by omega)]
  · rw [if_neg (by omega), if_pos (by omega)]
  · rw [if_neg (by omega), if_neg (by omega), if_pos (by omega)]
  · rw [if_neg (by omega), if_neg (by omega), if_neg (by omega), if_pos (by omega)]

theorem isTrailing_of_mem_ofChar {c : Char} {b : UInt8} (h : b ∈ (ofChar c).tail) :
    isTrailing b = true := by
  rcases ofChar_cases c with ⟨-, heq⟩ | ⟨-, -, heq⟩ | ⟨-, -, heq⟩ | ⟨-, -, heq⟩ <;>
    simp only [heq, List.mem_cons, List.not_mem_nil, or_false] at h
  · obtain rfl := h
    exact isTrailing_ofNat (Nat.mod_lt _ (by decide))
  · rcases h with rfl | rfl <;> exact isTrailing_ofNat (Nat.mod_lt _ (by decide))
  · rcases h with rfl | rfl | rfl <;> exact isTrailing_ofNat (Nat.mod_lt _ (by decide))

/-- **Reading inverts writing**: the number of a character is that of its scalar value. -/
theorem code_ofChar (c : Char) : (ofChar c).code = c.toNat := by
  rcases ofChar_cases c with ⟨hlt, heq⟩ | ⟨hge, hlt, heq⟩ | ⟨hge, hlt, heq⟩ | ⟨hge, hlt, heq⟩ <;>
    simp only [heq, code, List.isEmpty_nil, List.isEmpty_cons, if_true, Bool.false_eq_true, if_false,
      List.foldl_cons, List.foldl_nil, List.length_cons, List.length_nil, UInt8.toNat_ofNat']
  · have hlow : UInt8.ofNat c.toNat < 0x80 := by
      rw [UInt8.lt_iff_toNat_lt, UInt8.toNat_ofNat']
      show c.toNat % 256 < 128
      omega
    rw [if_pos hlow]
    exact Nat.mod_eq_of_lt (by omega)
  · show (c.toNat / 64 % 32 + 192) % 256 % 32 * 64 + (c.toNat % 64 + 128) % 256 % 64 = c.toNat
    omega
  · show ((c.toNat / 4096 % 16 + 224) % 256 % 16 * 64 + (c.toNat / 64 % 64 + 128) % 256 % 64) * 64 +
      (c.toNat % 64 + 128) % 256 % 64 = c.toNat
    omega
  · show (((c.toNat / 262144 % 8 + 240) % 256 % 8 * 64 + (c.toNat / 4096 % 64 + 128) % 256 % 64) * 64 +
      (c.toNat / 64 % 64 + 128) % 256 % 64) * 64 + (c.toNat % 64 + 128) % 256 % 64 = c.toNat
    omega

/-- A scalar value that counts as another one is that one. -/
theorem eq_of_is {g : Glyph} (h : g ∈ Set.range ofChar) {c : Char} (hc : g.is c = true) :
    g = ofChar c := by
  obtain ⟨d, rfl⟩ := h
  have hcode := is_iff.mp hc
  rw [code_ofChar] at hcode
  rw [Char.ext (UInt32.toNat_inj.mp hcode)]

/-- A scalar value takes its own bytes, whatever stands behind them. -/
theorem trail_ofChar (c : Char) (rest : Bytes) :
    trail (ofChar c).lead ((ofChar c).tail ++ rest) = (ofChar c).tail := by
  have htake : ((ofChar c).tail ++ rest).take (continuations (ofChar c).lead) = (ofChar c).tail := by
    rw [continuations_ofChar, List.take_left]
  have htrailing : (ofChar c).tail.all isTrailing = true :=
    List.all_eq_true.mpr fun b => isTrailing_of_mem_ofChar
  rw [trail_of_all _ (by rwa [htake]), htake]
  rw [continuations_ofChar, List.length_append]
  exact Nat.le_add_right _ _

end Glyph

theorem spell_map_ofChar (chars : List Char) : spell (chars.map Glyph.ofChar) = encode chars := by
  rw [spell, List.flatMap_map]
  exact List.flatMap_congr fun c _ => Glyph.bytes_ofChar c

theorem mem_range_of_mem_map_ofChar {chars : List Char} {g : Glyph} (h : g ∈ chars.map Glyph.ofChar) :
    g ∈ Set.range Glyph.ofChar := by
  obtain ⟨c, -, hc⟩ := List.mem_map.mp h
  exact ⟨c, hc⟩

/-- **Decoding inverts encoding.** -/
theorem decode_encode (chars : List Char) : decode (encode chars) = chars.map Glyph.ofChar := by
  have hdecoded : Decoded (chars.map Glyph.ofChar) := by
    induction chars with
    | nil => exact decoded_nil
    | cons c chars ih => exact decoded_cons.mpr ⟨Glyph.trail_ofChar c _, ih⟩
  rw [← spell_map_ofChar]
  exact hdecoded

/-! ## Well-formed texts -/

/-- **Well-formed UTF-8**: the UTF-8 form of some scalar values. -/
def IsUtf8 (text : Bytes) : Prop := text.toByteArray.IsValidUTF8

theorem isUtf8_iff_encode {text : Bytes} : IsUtf8 text ↔ ∃ chars, encode chars = text := by
  constructor
  · rintro ⟨chars, htext⟩
    exact ⟨chars, (List.toByteArray_inj.mp htext).symm⟩
  · rintro ⟨chars, rfl⟩
    exact ⟨chars, rfl⟩

/-- Characters that are decoded from scalar values spell a well-formed text. -/
theorem isUtf8_spell {glyphs : List Glyph} (h : ∀ g ∈ glyphs, g ∈ Set.range Glyph.ofChar) :
    IsUtf8 (spell glyphs) := by
  have hchars : glyphs ∈ Set.range (List.map Glyph.ofChar) := by
    rw [Set.range_list_map]
    exact h
  obtain ⟨chars, rfl⟩ := hchars
  exact isUtf8_iff_encode.mpr ⟨chars, (spell_map_ofChar chars).symm⟩

/-- Well-formed texts are those in which every character is decoded from a scalar value. -/
theorem isUtf8_iff_decode {text : Bytes} :
    IsUtf8 text ↔ ∀ g ∈ decode text, g ∈ Set.range Glyph.ofChar := by
  constructor
  · intro h g hg
    obtain ⟨chars, rfl⟩ := isUtf8_iff_encode.mp h
    rw [decode_encode] at hg
    exact mem_range_of_mem_map_ofChar hg
  · intro h
    rw [← spell_decode text]
    exact isUtf8_spell h

/-! ### Putting them together -/

theorem isUtf8_nil : IsUtf8 [] := isUtf8_iff_encode.mpr ⟨[], rfl⟩

theorem IsUtf8.append {left right : Bytes} (hleft : IsUtf8 left) (hright : IsUtf8 right) :
    IsUtf8 (left ++ right) := by
  obtain ⟨leftChars, rfl⟩ := isUtf8_iff_encode.mp hleft
  obtain ⟨rightChars, rfl⟩ := isUtf8_iff_encode.mp hright
  exact isUtf8_iff_encode.mpr ⟨leftChars ++ rightChars, List.flatMap_append⟩

theorem isUtf8_flatMap {α : Type} {f : α → Bytes} {xs : List α} (h : ∀ x ∈ xs, IsUtf8 (f x)) :
    IsUtf8 (xs.flatMap f) := by
  induction xs with
  | nil => exact isUtf8_nil
  | cons x xs ih =>
    obtain ⟨hx, hxs⟩ := List.forall_mem_cons.mp h
    rw [List.flatMap_cons]
    exact hx.append (ih hxs)

/-- Bytes below 0x80 are characters by themselves. -/
theorem isUtf8_of_all_lt {text : Bytes} (h : text.all (· < 0x80) = true) : IsUtf8 text := by
  have hsingle : ∀ b ∈ text, String.utf8EncodeChar (Char.ofUInt8 b) = [b] := by
    intro b hb
    have hlow : b.toNat ≤ 127 := by
      have hlt := of_decide_eq_true (List.all_eq_true.mp h b hb)
      rw [UInt8.lt_iff_toNat_lt] at hlt
      exact Nat.le_of_lt_succ hlt
    have hval : (Char.ofUInt8 b).val.toNat = b.toNat := rfl
    simp only [String.utf8EncodeChar, hval, if_pos hlow, UInt8.ofNat_toNat]
  refine isUtf8_iff_encode.mpr ⟨text.map Char.ofUInt8, ?_⟩
  rw [encode, List.flatMap_map, List.flatMap_congr hsingle]
  exact List.flatMap_singleton' text

theorem IsUtf8.endLine {text : Bytes} (h : IsUtf8 text) : IsUtf8 (endLine text) :=
  h.append (isUtf8_of_all_lt (by decide))

/-! ### Cutting at a newline -/

/-- A newline cuts a well-formed text in two. -/
theorem IsUtf8.of_newline {before after : Bytes} (h : IsUtf8 (before ++ newline :: after)) :
    IsUtf8 before ∧ IsUtf8 after := by
  have hall := isUtf8_iff_decode.mp h
  rw [decode_append_newline] at hall
  constructor
  · exact isUtf8_iff_decode.mpr fun g hg => hall g (List.mem_append_left _ hg)
  · exact isUtf8_iff_decode.mpr fun g hg =>
      hall g (List.mem_append_right _ (List.mem_cons_of_mem _ hg))

end LoxLexer
