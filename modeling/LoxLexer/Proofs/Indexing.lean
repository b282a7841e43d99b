import LoxLexer.Proofs.Decoding
import LoxLexer.Proofs.Stepping
import Mathlib.Algebra.GroupWithZero.Nat

/-!
# `LoxLexer.Proofs.Indexing` — a cursor is a list with an index

A cursor stands at a byte of its text. Every move decodes there anew, and a step back goes by as many bytes
as the last step read. It is not obvious from this that the cursor always stands between two characters, or
that looking ahead shows what reading on will give. So the moves are compared with those of a **bookmark** in
the list of all characters, decoded once from the start of the text: its index counts characters, and a step
back goes by one of them, or by none if the last step was one at the end. Whatever the moves are, both
give the same answers.

## Contents
- `Entry`, `entries` — the characters of a text with their widths.
- `Bookmark` — the index, the step to take back, and the five moves.
- `Simulates` — a cursor and a bookmark at the same place. `simulates_perform` is the step and
  `simulates_performAll` the run; `after` is the cursor that a run ends with.
- `performAll_ofText` — all of it from the start of a text, in terms of answers and positions.
-/

namespace LoxLexer

/-! ## The list -/

/-- A character and the number of bytes that spell it. -/
structure Entry where
  code : CodePoint
  width : Nat
deriving DecidableEq, Repr

/-- The characters of a text, decoded from its start. -/
def entries (text : Bytes) : List Entry := (decode text).map fun g => ⟨g.code, g.width⟩

theorem length_entries (text : Bytes) : (entries text).length = (decode text).length := List.length_map _

/-- How many bytes so many of the first characters take. -/
def offsetAt (list : List Entry) (index : Nat) : Nat := ((list.take index).map Entry.width).sum

theorem offsetAt_succ {list : List Entry} {index : Nat} {entry : Entry}
    (h : list[index]? = some entry) : offsetAt list (index + 1) = offsetAt list index + entry.width := by
  rw [offsetAt, offsetAt, List.take_add_one, h]
  simp

theorem offsetAt_le (list : List Entry) {i j : Nat} (h : i ≤ j) :
    offsetAt list i ≤ offsetAt list j := by
  rw [offsetAt, offsetAt, ← List.take_append_drop i (list.take j), List.take_take, Nat.min_eq_left h,
    List.map_append, List.sum_append]
  exact Nat.le_add_right _ _

/-! ## The index -/

/-- A place in a list: between two of its entries, in front of all or behind all. What may be taken back is
    one entry or none, and never more than there are before the place. -/
structure Bookmark (list : List Entry) where
  index : Nat
  /-- How many entries a step back goes, while there is a step to take back. -/
  undo : Option Nat
  index_le : index ≤ list.length
  undo_le : ∀ places ∈ undo, places ≤ 1 ∧ places ≤ index

namespace Bookmark

variable {list : List Entry}

/-- In front of all entries. -/
def start (list : List Entry) : Bookmark list := ⟨0, none, Nat.zero_le _, by simp⟩

/-- The entry so many places further on. -/
def peek (m : Bookmark list) (ahead : Nat) : Option CodePoint := list[m.index + ahead]?.map Entry.code

/-- Moves behind the next entry. At the end there is none, and the step goes nowhere. -/
def next (m : Bookmark list) : Option CodePoint × Bookmark list :=
  if h : m.index < list.length then (some list[m.index].code, ⟨m.index + 1, some 1, h, by simp⟩)
  else (none, { m with undo := some 0, undo_le := by simp })

/-- Takes the last step back, unless that was done already or there was none. -/
def stepBack (m : Bookmark list) : Bool × Bookmark list :=
  match m.undo with
  | none => (false, m)
  | some places =>
    (true, ⟨m.index - places, none, (Nat.sub_le _ _).trans m.index_le, by simp⟩)

/-- Moves behind the next entry if it is the expected one. -/
def accept (m : Bookmark list) (expected : CodePoint) : Bool × Bookmark list :=
  if m.peek 0 = some expected then (true, m.next.2) else (false, m)

/-- The answer to a move and the bookmark after it. -/
def perform (m : Bookmark list) : Cursor.Move → Cursor.Answer × Bookmark list
  | .peek ahead => (.character (m.peek ahead), m)
  | .next => (.character m.next.1, m.next.2)
  | .stepBack => (.success m.stepBack.1, m.stepBack.2)
  | .accept expected => (.success (m.accept expected).1, (m.accept expected).2)
  | .rewind => (.nothing, start list)

/-- The answers to a sequence of moves, each with the bookmark after it. -/
def performAll (m : Bookmark list) : List Cursor.Move → List (Cursor.Answer × Bookmark list)
  | [] => []
  | move :: moves => m.perform move :: performAll (m.perform move).2 moves

end Bookmark

namespace Cursor

/-! ## At the same place -/

theorem getElem?_entries (text : Bytes) (index : Nat) :
    (entries text)[index]? = (decode text)[index]?.map fun g => ⟨g.code, g.width⟩ := List.getElem?_map

/-- The widths of the first characters are the length of their bytes. -/
theorem offsetAt_entries (text : Bytes) (index : Nat) :
    offsetAt (entries text) index = (spell ((decode text).take index)).length := by
  have hwidths : ∀ glyphs : List Glyph,
      ((glyphs.map fun g => Entry.mk g.code g.width).map Entry.width).sum = (spell glyphs).length := by
    intro glyphs
    induction glyphs with
    | nil => rfl
    | cons g rest ih =>
      rw [List.map_cons, List.map_cons, List.sum_cons, ih, spell_cons, List.length_append,
        Glyph.length_bytes]
  rw [offsetAt, entries, ← List.map_take, hwidths]

/-- All characters together take the whole text. -/
theorem offsetAt_length (text : Bytes) : offsetAt (entries text) (entries text).length = text.length := by
  rw [offsetAt_entries, length_entries, List.take_length, spell_decode]

/-- Behind the bytes of the first characters stand those of the others. -/
theorem drop_offsetAt (text : Bytes) (index : Nat) :
    text.drop (offsetAt (entries text) index) = spell ((decode text).drop index) := by
  have hsplit : spell ((decode text).take index) ++ spell ((decode text).drop index) = text := by
    rw [← spell_append, List.take_append_drop, spell_decode]
  calc text.drop (offsetAt (entries text) index)
      = (spell ((decode text).take index) ++ spell ((decode text).drop index)).drop
          (spell ((decode text).take index)).length := by rw [hsplit, offsetAt_entries]
    _ = spell ((decode text).drop index) := List.drop_left

/-- **The cursor and the bookmark are at the same place**, and their last steps were the same. -/
structure Simulates {source : Bytes} (c : Cursor) (m : Bookmark (entries source)) : Prop where
  text : c.text = source
  position : c.position = offsetAt (entries source) m.index
  undo : c.undo = m.undo.map fun places =>
    offsetAt (entries source) m.index - offsetAt (entries source) (m.index - places)

namespace Simulates

variable {source : Bytes} {c : Cursor} {m : Bookmark (entries source)}

theorem start (source : Bytes) : (ofText source).Simulates (Bookmark.start (entries source)) where
  text := rfl
  position := rfl
  undo := rfl

/-- What is ahead of the cursor is the list behind the bookmark: no character is torn. -/
theorem ahead_eq (h : c.Simulates m) : c.ahead = (decode source).drop m.index := by
  have hdecoded : Decoded ((decode source).take m.index ++ (decode source).drop m.index) := by
    rw [List.take_append_drop]
    exact decoded_decode source
  rw [ahead, remaining, h.text, h.position, drop_offsetAt]
  exact hdecoded.of_append_right

theorem head?_ahead (h : c.Simulates m) : c.ahead.head? = (decode source)[m.index]? := by
  rw [h.ahead_eq, List.head?_drop]

theorem peek_eq (h : c.Simulates m) (ahead : Nat) : c.peek ahead = m.peek ahead := by
  show c.ahead[ahead]?.map Glyph.code = (entries source)[m.index + ahead]?.map Entry.code
  rw [h.ahead_eq, List.getElem?_drop, getElem?_entries, Option.map_map]
  rfl

theorem atEnd_iff (h : c.Simulates m) : c.atEnd = true ↔ m.index = (entries source).length := by
  have hle := m.index_le
  rw [length_entries] at hle
  rw [Cursor.atEnd_iff, h.ahead_eq, List.drop_eq_nil_iff, length_entries]
  omega

/-! ## Moves -/

theorem next (h : c.Simulates m) : c.next.1 = m.next.1 ∧ c.next.2.Simulates m.next.2 := by
  by_cases hmore : m.index < (entries source).length
  · have hlt : m.index < (decode source).length := length_entries source ▸ hmore
    have hentry : (entries source)[m.index]? =
        some ⟨(decode source)[m.index].code, (decode source)[m.index].width⟩ := by
      rw [getElem?_entries, List.getElem?_eq_getElem hlt]
      rfl
    have hnext : c.next = (some (decode source)[m.index].code,
        { c with position := c.position + (decode source)[m.index].width
                 undo := some (decode source)[m.index].width }) := by
      unfold Cursor.next
      rw [firstGlyph?_remaining, h.head?_ahead, List.getElem?_eq_getElem hlt]
    have hstep := offsetAt_succ hentry
    rw [Bookmark.next, dif_pos hmore, hnext]
    refine ⟨?_, h.text, ?_, ?_⟩
    · rw [List.getElem?_eq_getElem hmore] at hentry
      rw [Option.some.inj hentry]
    · rw [hstep, ← h.position]
    · -- what the step read lies between the two places
      show some _ = some (offsetAt _ (m.index + 1) - offsetAt _ (m.index + 1 - 1))
      rw [Nat.add_sub_cancel, hstep, Nat.add_sub_cancel_left]
  · have hnil : c.ahead = [] := by
      rw [h.ahead_eq, List.drop_eq_nil_iff, ← length_entries]
      exact Nat.le_of_not_lt hmore
    rw [Bookmark.next, dif_neg hmore, next_of_ahead_nil hnil]
    refine ⟨rfl, h.text, h.position, ?_⟩
    show some 0 = some (offsetAt _ m.index - offsetAt _ (m.index - 0))
    rw [Nat.sub_zero, Nat.sub_self]

theorem stepBack (h : c.Simulates m) :
    c.stepBack.1 = m.stepBack.1 ∧ c.stepBack.2.Simulates m.stepBack.2 := by
  have hundo := h.undo
  unfold Cursor.stepBack Bookmark.stepBack
  cases hplaces : m.undo with
  | none =>
    rw [hplaces] at hundo
    rw [hundo]
    exact ⟨rfl, h⟩
  | some places =>
    rw [hplaces] at hundo
    rw [hundo]
    refine ⟨rfl, h.text, ?_, rfl⟩
    -- the bytes taken back are those between the two places
    have hle := offsetAt_le (entries source) (Nat.sub_le m.index places)
    show c.position - _ = _
    rw [h.position, Nat.sub_sub_self hle]

theorem accept (h : c.Simulates m) (expected : CodePoint) :
    (c.accept expected).1 = (m.accept expected).1 ∧
      (c.accept expected).2.Simulates (m.accept expected).2 := by
  have hpeek : (firstGlyph? c.remaining).map Glyph.code = m.peek 0 := by
    rw [firstGlyph?_remaining, ← peek_zero, h.peek_eq]
  unfold Cursor.accept Bookmark.accept
  rw [hpeek]
  split
  · exact ⟨rfl, h.next.2⟩
  · exact ⟨rfl, h⟩

end Simulates

/-- **The step**: cursor and bookmark answer a move alike, and are at the same place after it. -/
theorem simulates_perform {source : Bytes} {c : Cursor} {m : Bookmark (entries source)}
    (h : c.Simulates m) (move : Move) :
    (c.perform move).1 = (m.perform move).1 ∧ (c.perform move).2.Simulates (m.perform move).2 := by
  cases move with
  | peek ahead => exact ⟨congrArg Answer.character (h.peek_eq ahead), h⟩
  | next => exact ⟨congrArg Answer.character h.next.1, h.next.2⟩
  | stepBack => exact ⟨congrArg Answer.success h.stepBack.1, h.stepBack.2⟩
  | accept expected => exact ⟨congrArg Answer.success (h.accept expected).1, (h.accept expected).2⟩
  | rewind =>
    refine ⟨rfl, ?_⟩
    show c.rewind.Simulates (Bookmark.start (entries source))
    rw [rewind, h.text]
    exact .start source

/-- **The run**: cursor and bookmark answer every sequence of moves alike, and are at the same place after
    each of them. -/
theorem simulates_performAll {source : Bytes} {c : Cursor} {m : Bookmark (entries source)}
    (h : c.Simulates m) (moves : List Move) :
    List.Forall₂ (fun here there => here.1 = there.1 ∧ here.2.Simulates there.2)
      (c.performAll moves) (m.performAll moves) := by
  induction moves generalizing c m with
  | nil => exact .nil
  | cons move moves ih =>
    have hstep := simulates_perform h move
    exact .cons hstep (ih hstep.2)

/-- The cursor after a sequence of moves. -/
def after (c : Cursor) (moves : List Move) : Cursor :=
  moves.foldl (fun c move => (c.perform move).2) c

theorem after_append (c : Cursor) (moves later : List Move) :
    c.after (moves ++ later) = (c.after moves).after later := List.foldl_append

/-- Wherever moves lead, there is a bookmark at the same place. -/
theorem Simulates.exists_after {source : Bytes} {c : Cursor} {m : Bookmark (entries source)}
    (h : c.Simulates m) (moves : List Move) :
    ∃ m' : Bookmark (entries source), (c.after moves).Simulates m' := by
  induction moves generalizing c m with
  | nil => exact ⟨m, h⟩
  | cons move moves ih => exact ih (simulates_perform h move).2

/-- The cursor stands where the bookmark is: behind the bytes of all characters before it, and at the end of
    the text exactly if there are no more characters. -/
structure StandsAt {list : List Entry} (c : Cursor) (m : Bookmark list) : Prop where
  position : c.position = ((list.take m.index).map Entry.width).sum
  atEnd_iff : c.atEnd = true ↔ m.index = list.length

theorem Simulates.standsAt {source : Bytes} {c : Cursor} {m : Bookmark (entries source)}
    (h : c.Simulates m) : c.StandsAt m := ⟨h.position, h.atEnd_iff⟩

/-- **A cursor is a list with an index.** The characters of a text take all of its bytes. A cursor from the
    start of the text gives every sequence of moves the answers that a bookmark in the list of these
    characters gives, and it stands where the bookmark is, at first and after every move. -/
theorem performAll_ofText (source : Bytes) (moves : List Move) :
    ((entries source).map Entry.width).sum = source.length ∧
      (ofText source).StandsAt (Bookmark.start (entries source)) ∧
      List.Forall₂ (fun here there => here.1 = there.1 ∧ here.2.StandsAt there.2)
        ((ofText source).performAll moves) ((Bookmark.start (entries source)).performAll moves) := by
  have hstart := Simulates.start source
  refine ⟨?_, hstart.standsAt, ?_⟩
  · rw [← offsetAt_length, offsetAt, List.take_length]
  · apply (simulates_performAll hstart moves).imp
    intro here there h
    exact ⟨h.1, h.2.standsAt⟩

end Cursor

end LoxLexer
