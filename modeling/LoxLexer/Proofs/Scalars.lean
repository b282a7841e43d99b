import LoxLexer.Proofs.Indexing
import LoxLexer.Proofs.Unicode

/-!
# `LoxLexer.Proofs.Scalars` — a cursor over encoded text reads back the scalar values

Encoding puts one to four bytes in the place of each scalar value. A cursor only sees the bytes, and it may
step back and look ahead on its way. It never reads a byte of one scalar value as part of another, so it
stands in front of one of them at all times, or behind all of them: what comes next, and what comes after
that, are the scalar values from there on.

Since a cursor is a list with an index (`LoxLexer.Proofs.Indexing`), it only has to be said which list:
the scalar values, each with the length of its encoding (`entries_encode`).

## Contents
- `entries_encode`, `offsetAt_encode` — the list, and where its members stand in the bytes.
- `InFrontOf` — the place of a cursor among scalar values; `Simulates.inFrontOf` is the place of every
  cursor that has a bookmark.
- `exists_simulates_replicate_next` — so many steps make so many members.
- `after_encode` — reading from the start, step by step, and wherever other moves lead.
-/

namespace LoxLexer

/-! ## The list -/

/-- A scalar value and the length of its encoding. -/
def Entry.ofChar (c : Char) : Entry := ⟨c.toNat, (encode [c]).length⟩

/-- **The characters of an encoded text** are the scalar values. -/
theorem entries_encode (chars : List Char) : entries (encode chars) = chars.map Entry.ofChar := by
  rw [entries, decode_encode, List.map_map]
  apply List.map_congr_left
  intro c _
  show Entry.mk (Glyph.ofChar c).code (Glyph.ofChar c).width = Entry.ofChar c
  rw [Glyph.code_ofChar, ← Glyph.length_bytes, Glyph.bytes_ofChar, Entry.ofChar, encode,
    List.flatMap_singleton]

/-- In front of a member stand the encodings of the members before it. -/
theorem offsetAt_encode (chars : List Char) (index : Nat) :
    offsetAt (entries (encode chars)) index = (encode (chars.take index)).length := by
  rw [Cursor.offsetAt_entries, decode_encode, ← List.map_take, spell_map_ofChar]

theorem length_entries_encode (chars : List Char) :
    (entries (encode chars)).length = chars.length := by
  rw [entries_encode, List.length_map]

theorem code_getElem?_entries_encode (chars : List Char) (index : Nat) :
    (entries (encode chars))[index]?.map Entry.code = chars[index]?.map Char.toNat := by
  rw [entries_encode, List.getElem?_map, Option.map_map]
  rfl

/-- The next entry is the one that is no places ahead. -/
theorem Bookmark.next_fst {list : List Entry} (m : Bookmark list) : m.next.1 = m.peek 0 := by
  unfold Bookmark.next Bookmark.peek
  split
  · rename_i hmore
    simp [hmore]
  · rename_i hend
    simp [Nat.le_of_not_lt hend]

/-! ## The cursor -/

namespace Cursor

/-- **The cursor stands in front of the scalar value with this index**, and reads on from there. Where the
    index is that of no scalar value, it stands behind all of them, and reads nothing. -/
structure InFrontOf (chars : List Char) (index : Nat) (c : Cursor) : Prop where
  position : c.position = (encode (chars.take index)).length
  next : c.next.1 = chars[index]?.map Char.toNat
  peek : ∀ ahead, c.peek ahead = (chars.drop index)[ahead]?.map Char.toNat
  atEnd_iff : c.atEnd = true ↔ chars.length ≤ index

section Encoded

variable {chars : List Char} {c : Cursor} {m : Bookmark (entries (encode chars))}

/-- A cursor with a bookmark stands in front of the scalar value with the index of the bookmark. -/
theorem Simulates.inFrontOf (h : c.Simulates m) : InFrontOf chars m.index c := by
  refine ⟨?_, ?_, ?_, ?_⟩
  · rw [h.position, offsetAt_encode]
  · rw [h.next.1, Bookmark.next_fst, Bookmark.peek, code_getElem?_entries_encode, Nat.add_zero]
  · intro ahead
    rw [h.peek_eq, Bookmark.peek, code_getElem?_entries_encode, List.getElem?_drop]
  · have hle := m.index_le
    rw [h.atEnd_iff, length_entries_encode] at *
    omega

/-- Behind the last scalar value there is one place only. -/
theorem InFrontOf.of_min {n : Nat} (h : InFrontOf chars (min n chars.length) c) :
    InFrontOf chars n c := by
  rcases Nat.le_total n chars.length with hle | hge
  · rwa [Nat.min_eq_left hle] at h
  · obtain ⟨hposition, hnext, hpeek, hend⟩ := h
    rw [Nat.min_eq_right hge] at hposition hnext hpeek hend
    refine ⟨?_, ?_, ?_, iff_of_true (hend.mpr (Nat.le_refl _)) hge⟩
    · rw [hposition, List.take_length, List.take_of_length_le hge]
    · rw [hnext, List.getElem?_eq_none (Nat.le_refl _), List.getElem?_eq_none hge]
    · intro ahead
      rw [hpeek, List.drop_length, List.drop_eq_nil_of_le hge]

end Encoded

/-- So many steps lead behind so many members, as long as there are any. -/
theorem exists_simulates_replicate_next (source : Bytes) (n : Nat) :
    ∃ m : Bookmark (entries source), ((ofText source).after (List.replicate n .next)).Simulates m ∧
      m.index = min n (entries source).length := by
  induction n with
  | zero => exact ⟨_, .start source, (Nat.zero_min _).symm⟩
  | succ n ih =>
    obtain ⟨m, hm, hindex⟩ := ih
    refine ⟨m.next.2, ?_, ?_⟩
    · rw [List.replicate_succ', after_append]
      exact hm.next.2
    · unfold Bookmark.next
      split
      · show m.index + 1 = _
        omega
      · show m.index = _
        omega

/-- **Reading inverts encoding.** From the start of the encoding of some scalar values, so many steps lead a
    cursor in front of the scalar value with this index, and behind all of them once there are no more. Other
    moves lead nowhere else. -/
theorem after_encode (chars : List Char) :
    (∀ n, InFrontOf chars n ((ofText (encode chars)).after (List.replicate n .next))) ∧
      ∀ moves, ∃ index ≤ chars.length, InFrontOf chars index ((ofText (encode chars)).after moves) := by
  constructor
  · intro n
    obtain ⟨m, hm, hindex⟩ := exists_simulates_replicate_next (encode chars) n
    have hplace := hm.inFrontOf
    rw [hindex, length_entries_encode] at hplace
    exact hplace.of_min
  · intro moves
    obtain ⟨m, hm⟩ := (Simulates.start (encode chars)).exists_after moves
    exact ⟨m.index, length_entries_encode chars ▸ m.index_le, hm.inFrontOf⟩

/-- Two scalar values of two and four bytes. -/
example : (performAll (ofText (encode ['é', '😀'])) [.peek 1, .next, .next, .next]).map Prod.fst =
    [.character (some 0x1F600), .character (some 0xE9), .character (some 0x1F600), .character none] := by
  decide +kernel

end Cursor

end LoxLexer
