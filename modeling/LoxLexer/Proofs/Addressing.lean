import LoxLexer.Proofs.Locating
import Mathlib.Algebra.GroupWithZero.Nat
import Mathlib.Data.Prod.Lex

/-!
# `LoxLexer.Proofs.Addressing` — a line and a column are the address of an offset

A text is its lines with a newline between any two. An offset can be named in two ways: as a number of
bytes, or as the number of a line and a column in it, where the column just behind the last byte of a line
belongs to this line and not to the next. Locating an offset goes from the one to the other, and nothing is
lost on the way: each address inside the text belongs to one offset, and the order is the same.

What carries all of this is the position of the lines. The lines follow one another with one byte between
them, so no two places on them have the same offset (`lineOffset_add_inj`).

## Contents
- `split_eq_splitOn` and the lemmas after it — the parts of a text between separators.
- `lineOffset` — where a line starts, by the lines in front of it.
- `Locates`, `locates_ofOffset` — what the location of an offset says, by the lines of the text.
- `address_lineOffset_add`, `offset_of_address`, `address_mono` — from places to offsets and back.
- `Addressing`, `location_addressing` — offsets and addresses, in both directions.
-/

namespace LoxLexer

/-! ## Parts between separators -/

theorem split_eq_splitOn (sep : UInt8) (text : Bytes) : split sep text = text.splitOn sep := by
  induction text with
  | nil => rw [split, List.splitOn_nil]
  | cons b rest ih =>
    rw [split, List.splitOn_cons_eq_if_modifyHead, ih]
    by_cases hb : b = sep
    · simp [hb]
    · cases hparts : rest.splitOn sep with
      | nil => exact absurd hparts (List.splitOn_ne_nil sep rest)
      | cons part parts => simp [hb]

theorem split_append_cons (sep : UInt8) (left right : Bytes) :
    split sep (left ++ sep :: right) = split sep left ++ split sep right := by
  simp only [split_eq_splitOn, List.splitOn_append_cons_self]

theorem split_of_not_mem {sep : UInt8} {text : Bytes} (h : sep ∉ text) : split sep text = [text] := by
  rw [split_eq_splitOn, List.splitOn_eq_singleton h]

/-- The first part goes to the first newline, or to the end. -/
theorem exists_split_eq_cons (text : Bytes) : ∃ more, split newline text = firstLine text :: more := by
  obtain ⟨behind, htext, hbehind⟩ := exists_behind_firstLine text
  have hfirst := split_of_not_mem (newline_not_mem_firstLine text)
  cases behind with
  | nil =>
    rw [List.append_nil] at htext
    exact ⟨[], htext ▸ hfirst⟩
  | cons b rest =>
    obtain rfl := hbehind b rfl
    refine ⟨split newline rest, ?_⟩
    conv_lhs => rw [htext]
    rw [split_append_cons, hfirst, List.singleton_append]

/-! ## Where lines start -/

/-- Where the line with the given index starts: behind all lines in front of it and their newlines. -/
def lineOffset (lines : List Bytes) (index : Nat) : Nat :=
  ((lines.take index).map fun line => line.length + 1).sum

section LineOffset

variable {lines : List Bytes} {line line' : Bytes} {i j c d : Nat}

theorem lineOffset_succ (h : lines[i]? = some line) :
    lineOffset lines (i + 1) = lineOffset lines i + line.length + 1 := by
  rw [lineOffset, List.take_add_one, h, List.map_append, List.sum_append_nat]
  rfl

theorem lineOffset_mono (lines : List Bytes) (h : i ≤ j) : lineOffset lines i ≤ lineOffset lines j := by
  obtain ⟨more, hmore⟩ : lines.take i <+: lines.take j := List.take_prefix_take_left h
  rw [lineOffset, lineOffset, ← hmore, List.map_append, List.sum_append_nat]
  exact Nat.le_add_right _ _

/-- A line ends before the next one starts. -/
theorem lineOffset_add_lt (h : lines[i]? = some line) (hc : c ≤ line.length) (hij : i < j) :
    lineOffset lines i + c < lineOffset lines j := by
  have hnext := lineOffset_mono lines hij
  rw [Nat.succ_eq_add_one, lineOffset_succ h] at hnext
  omega

/-- **No two places have the same offset.** -/
theorem lineOffset_add_inj (hi : lines[i]? = some line) (hc : c ≤ line.length)
    (hj : lines[j]? = some line') (hd : d ≤ line'.length)
    (h : lineOffset lines i + c = lineOffset lines j + d) : i = j ∧ c = d := by
  rcases Nat.lt_trichotomy i j with hlt | rfl | hgt
  · have hbefore := lineOffset_add_lt hi hc hlt
    omega
  · exact ⟨rfl, Nat.add_left_cancel h⟩
  · have hbefore := lineOffset_add_lt hj hd hgt
    omega

end LineOffset

theorem sum_length_split (sep : UInt8) (text : Bytes) :
    ((split sep text).map fun part => part.length + 1).sum = text.length + 1 := by
  induction text with
  | nil => rfl
  | cons b rest ih =>
    by_cases hb : b = sep
    · simp [split, hb, ih]
      omega
    · cases hparts : split sep rest with
      | nil => simp [hparts] at ih
      | cons part parts =>
        simp only [hparts, List.map_cons, List.sum_cons] at ih
        simp only [split, if_neg hb, hparts, List.map_cons, List.sum_cons, List.length_cons]
        omega

/-- A line that there is ends inside the text. -/
theorem lineOffset_add_le {text line : Bytes} {i c : Nat} (h : (split newline text)[i]? = some line)
    (hc : c ≤ line.length) : lineOffset (split newline text) i + c ≤ text.length := by
  have hlt := lineOffset_add_lt h hc (List.getElem?_eq_some_iff.mp h).1
  rw [lineOffset, lineOffset, List.take_length, sum_length_split] at hlt
  exact Nat.le_of_lt_succ hlt

/-- Whole lines come first in the text and first among its lines. -/
theorem exists_lines_of_closedLines {above : Bytes} (h : ClosedLines above) : ∃ lines,
    lines.length = above.count newline ∧ (lines.map fun line => line.length + 1).sum = above.length ∧
      ∀ rest, split newline (above ++ rest) = lines ++ split newline rest := by
  rcases above.eq_nil_or_concat with rfl | ⟨front, b, rfl⟩
  · exact ⟨[], rfl, rfl, fun _ => rfl⟩
  · rw [List.concat_eq_append] at h ⊢
    obtain rfl : b = newline := h b (by simp)
    refine ⟨split newline front, ?_, ?_, ?_⟩
    · rw [length_split, List.count_append]
      rfl
    · rw [sum_length_split, List.length_append]
      rfl
    · intro rest
      rw [List.append_assoc]
      exact split_append_cons newline front rest

/-! ## Locations -/

/-- **The location says where the offset is**: on which of the lines of the text, where this line starts, and
    how far behind its start. An offset behind the end stands for the end. -/
structure Locates (text : Bytes) (offset : Nat) (place : Location) : Prop where
  one_le_line : 1 ≤ place.line
  line_le : place.line ≤ (split newline text).length
  lineText : (split newline text)[place.line - 1]? = some place.lineText
  lineStart : place.lineStart = lineOffset (split newline text) (place.line - 1)
  column_le : place.column ≤ place.lineText.length
  offset : place.lineStart + place.column = min offset text.length

theorem locates_ofOffset (text : Bytes) (offset : Nat) :
    Locates text offset (Location.ofOffset text offset) := by
  obtain ⟨above, front, htext, habove, hfront, hlength, hlocation⟩ := exists_location text offset
  obtain ⟨lines, hcount, hsum, hsplit⟩ := exists_lines_of_closedLines habove
  obtain ⟨more, hmore⟩ := exists_split_eq_cons (front ++ text.drop offset)
  rw [firstLine_append_of_not_mem hfront] at hmore
  -- the lines of the text: those above, the one that the offset is on, and those below
  have hlines : split newline text = lines ++ (front ++ firstLine (text.drop offset)) :: more := by
    rw [← hmore, ← hsplit, ← List.append_assoc, ← htext]
  rw [hlocation]
  refine ⟨Nat.le_add_right 1 _, ?_, ?_, ?_, ?_, ?_⟩
  · simp only [hlines, List.length_append, List.length_cons, hcount]
    omega
  · simp only [hlines, Nat.add_sub_cancel_left, ← hcount,
      List.getElem?_append_right (Nat.le_refl _), Nat.sub_self]
    rfl
  · simp only [hlines, Nat.add_sub_cancel_left, ← hcount, lineOffset, List.take_left, hsum]
  · simp
  · simp only [← hlength, List.length_append]

/-- Line and column. Addresses are ordered by their lines, and on one line by their columns. -/
def Location.address (place : Location) : Nat ×ₗ Nat := toLex (place.line, place.column)

/-- The offset of a place on a line has this address. -/
theorem address_lineOffset_add {text line : Bytes} {i column : Nat}
    (hline : (split newline text)[i]? = some line) (hcolumn : column ≤ line.length) :
    (Location.ofOffset text (lineOffset (split newline text) i + column)).address =
      toLex (i + 1, column) := by
  have hinside := lineOffset_add_le hline hcolumn
  -- the offset is at this place and at the place located, so these are the same
  have hlocates := locates_ofOffset text (lineOffset (split newline text) i + column)
  have hsum := hlocates.offset
  rw [Nat.min_eq_left hinside, hlocates.lineStart] at hsum
  obtain ⟨hi, hc⟩ := lineOffset_add_inj hlocates.lineText hlocates.column_le hline hcolumn hsum
  have hnumber : (Location.ofOffset text _).line = i + 1 :=
    (Nat.sub_eq_iff_eq_add hlocates.one_le_line).mp hi
  rw [Location.address, hnumber, hc]

/-- An address has one offset. -/
theorem offset_of_address {text : Bytes} {offset i column : Nat} (hle : offset ≤ text.length)
    (h : (Location.ofOffset text offset).address = toLex (i + 1, column)) :
    offset = lineOffset (split newline text) i + column := by
  obtain ⟨hline, hcolumn⟩ := Prod.mk.inj (toLex_inj.mp h)
  have hlocates := locates_ofOffset text offset
  rw [← Nat.min_eq_left hle, ← hlocates.offset, hlocates.lineStart, hline, hcolumn, Nat.add_sub_cancel]

theorem address_mono (text : Bytes) : Monotone fun offset => (Location.ofOffset text offset).address := by
  intro first second hle
  have hfirst := locates_ofOffset text first
  have hsecond := locates_ofOffset text second
  have hoffsets : min first text.length ≤ min second text.length := by omega
  rw [← hfirst.offset, ← hsecond.offset, hfirst.lineStart, hsecond.lineStart] at hoffsets
  have hone := hsecond.one_le_line
  show toLex _ ≤ toLex _
  rw [Prod.Lex.toLex_le_toLex]
  rcases Nat.lt_trichotomy (Location.ofOffset text first).line (Location.ofOffset text second).line with
    hlt | heq | hgt
  · exact Or.inl hlt
  · rw [heq] at hoffsets
    exact Or.inr ⟨heq, Nat.le_of_add_le_add_left hoffsets⟩
  · -- a later line starts behind every place of this one
    have hbehind := lineOffset_add_lt hsecond.lineText hsecond.column_le (Nat.sub_lt_sub_right hone hgt)
    omega

/-- **Offsets and addresses of a text.** -/
structure Addressing (text : Bytes) : Prop where
  locates : ∀ offset, Locates text offset (Location.ofOffset text offset)
  /-- Lines are numbered from one, so the line with index `i` has the number `i + 1`. -/
  existsUnique : ∀ {i column : Nat} {line : Bytes}, (split newline text)[i]? = some line →
    column ≤ line.length → ∃! offset, offset ≤ text.length ∧
      (Location.ofOffset text offset).address = toLex (i + 1, column)
  monotone : Monotone fun offset => (Location.ofOffset text offset).address

/-- **An offset is its line and column, and nothing is lost.** -/
theorem location_addressing (text : Bytes) : Addressing text := by
  constructor
  · exact locates_ofOffset text
  · intro i column line hline hcolumn
    refine ⟨lineOffset (split newline text) i + column, ?_, ?_⟩
    · exact ⟨lineOffset_add_le hline hcolumn, address_lineOffset_add hline hcolumn⟩
    · rintro offset ⟨hle, haddress⟩
      exact offset_of_address hle haddress
  · exact address_mono text

/-- A newline is on the line that it ends. -/
example : (Location.ofOffset (ascii "a\n\nb") 1).address = toLex (1, 1) ∧
    (Location.ofOffset (ascii "a\n\nb") 2).address = toLex (2, 0) := by decide

end LoxLexer
