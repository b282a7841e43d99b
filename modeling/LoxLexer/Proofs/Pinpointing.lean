import LoxLexer.Diagnostic.Block
import LoxLexer.Proofs.Bounds
import LoxLexer.Proofs.Locating

/-!
# `LoxLexer.Proofs.Pinpointing` — finding a line by searching, with every difference checked

`Location.ofOffset` measures a line from the offset backwards and from its start forwards. The line can be
found as well by a search for the newlines around the offset, with the column and the length of the line as
differences of what was found. This is done here with the checked operations, for the location and for the
error block drawn from it, and comes to the same whatever the text, the offset and the length of the span: the
line starts at or before the offset and ends at or behind it, and a number is as long as it has digits.

## Contents
- `lastNewlineBefore?`, `firstNewlineFrom?` — the searches.
- `Location.ofOffset?`, `ofOffset?_eq` — the location of an offset.
- `errorBlock?`, `errorBlock?_eq` — the error block of a span.
-/

namespace LoxLexer

/-! ## Searching for newlines -/

/-- The last newline before an offset. -/
def lastNewlineBefore? (text : Bytes) : Nat → Option Nat
  | 0 => none
  | offset + 1 => if text[offset]? = some newline then some offset else lastNewlineBefore? text offset

/-- The first newline from an offset on. -/
def firstNewlineFrom? (text : Bytes) (offset : Nat) : Option Nat :=
  ((text.drop offset).findIdx? (· == newline)).map (offset + ·)

/-- Where the line of an offset starts: behind the last newline before it, or else at the beginning. -/
def lineStartOf (text : Bytes) (offset : Nat) : Nat := ((lastNewlineBefore? text offset).map (· + 1)).getD 0

/-- Where a line ends that starts at an offset: at the next newline, or else at the end of the text. -/
def lineEndOf (text : Bytes) (start : Nat) : Nat := (firstNewlineFrom? text start).getD text.length

theorem firstLine_cons (b : UInt8) (rest : Bytes) :
    firstLine (b :: rest) = if b = newline then [] else b :: firstLine rest := by
  rw [firstLine, List.takeWhile_cons, firstLine]
  by_cases hb : b = newline <;> simp [hb]

theorem take_length_firstLine (text : Bytes) : text.take (firstLine text).length = firstLine text :=
  (List.prefix_iff_eq_take.mp (List.takeWhile_prefix _)).symm

/-- Between the start of its line and an offset are the bytes read backwards from the offset until a
    newline comes. -/
theorem lineStartOf_add_length (text : Bytes) {offset : Nat} (h : offset ≤ text.length) :
    lineStartOf text offset + (firstLine (text.take offset).reverse).length = offset := by
  induction offset with
  | zero => rfl
  | succ offset ih =>
    have hbyte : text[offset]? = some text[offset] := List.getElem?_eq_getElem h
    have htake : (text.take (offset + 1)).reverse = text[offset] :: (text.take offset).reverse := by
      rw [List.take_add_one, hbyte, Option.toList_some, List.reverse_append]
      rfl
    rw [htake, firstLine_cons]
    by_cases hnewline : text[offset] = newline
    · have hstart : lineStartOf text (offset + 1) = offset + 1 := by
        simp [lineStartOf, lastNewlineBefore?, hbyte, hnewline]
      rw [if_pos hnewline, hstart]
      rfl
    · have hstart : lineStartOf text (offset + 1) = lineStartOf text offset := by
        simp [lineStartOf, lastNewlineBefore?, hbyte, hnewline]
      rw [if_neg hnewline, hstart, List.length_cons, ← Nat.add_assoc, ih (Nat.le_of_succ_le h)]

theorem getD_findIdx?_newline (text : Bytes) :
    (text.findIdx? (· == newline)).getD text.length = (firstLine text).length := by
  induction text with
  | nil => rfl
  | cons b rest ih =>
    rw [firstLine_cons, List.findIdx?_cons]
    by_cases hb : b = newline
    · simp [hb]
    · rw [if_neg hb, List.length_cons, List.length_cons, ← ih]
      cases hsearch : rest.findIdx? (· == newline) <;> simp [hb]

/-- Between the start of a line and its end is the line. -/
theorem lineEndOf_eq (text : Bytes) {start : Nat} (h : start ≤ text.length) :
    lineEndOf text start = start + (firstLine (text.drop start)).length := by
  rw [← getD_findIdx?_newline, lineEndOf, firstNewlineFrom?]
  cases (text.drop start).findIdx? (· == newline) with
  | none => rw [List.length_drop]; exact (Nat.add_sub_cancel' h).symm
  | some index => rfl

/-! ## Locations -/

/-- The place of an offset, found by searching. An offset beyond the end stands for the end. -/
def Location.ofOffset? (source : Bytes) (offset : Nat) : Option Location := do
  let offset := min offset source.length
  let lineStart := lineStartOf source offset
  let length ← difference? (lineEndOf source lineStart) lineStart
  let lineText ← slice? source lineStart length
  let column ← difference? offset lineStart
  return { line := 1 + (source.take offset).count newline, column, lineStart, lineText }

/-- **Searching finds the place of every offset.** The line starts no later than the offset and ends no
    earlier than it starts. -/
theorem Location.ofOffset?_eq (source : Bytes) (offset : Nat) :
    ofOffset? source offset = some (ofOffset source offset) := by
  have hclamped : ofOffset source offset = ofOffset source (min offset source.length) := by
    rw [ofOffset, ofOffset, ← List.take_eq_take_min]
  rw [hclamped, ofOffset?]
  have hinside : min offset source.length ≤ source.length := Nat.min_le_right _ _
  generalize min offset source.length = offset at hinside ⊢
  have hsum := lineStartOf_add_length source hinside
  have hend := @lineEndOf_eq source (lineStartOf source offset) (by omega)
  generalize lineStartOf source offset = lineStart at hsum hend ⊢
  have hlength : difference? (lineEndOf source lineStart) lineStart =
      some (firstLine (source.drop lineStart)).length := by
    rw [hend, difference?_add]
  have hslice : slice? source lineStart (firstLine (source.drop lineStart)).length =
      some (firstLine (source.drop lineStart)) := by
    rw [slice?_eq (by omega), take_length_firstLine]
  have hcolumn : difference? offset lineStart =
      some (firstLine (source.take offset).reverse).length := by
    rw [← difference?_add lineStart, hsum]
  have hfront : (source.take offset).length - (firstLine (source.take offset).reverse).length =
      lineStart := by
    rw [List.length_take, Nat.min_eq_left hinside]
    omega
  simp only [Option.bind_eq_bind, hlength, Option.bind_some, hslice, hcolumn]
  rw [ofOffset, hfront]
  rfl

/-! ## Blocks -/

/-- The block for a message about a span of the text, drawn from the place that searching finds. -/
def errorBlock? (source message : Bytes) (span : Span) : Option Bytes := do
  let place ← Location.ofOffset? source span.offset
  let onLine ← difference? place.lineText.length place.column
  let width := Decimal.digitCount place.line + 2
  let number := Decimal.numeral place.line
  let field ← difference? width 1
  let padding ← difference? field number.length
  let gutter := spaces width
  return endLine message ++
    endLine (gutter ++ ascii "|") ++
    endLine (spaces padding ++ number ++ ascii " | " ++ place.lineText) ++
    endLine (gutter ++ ascii "| " ++ spaces place.column ++
      List.replicate (min span.length onLine) '^'.toUInt8) ++
    if onLine < span.length then
      endLine (gutter ++ ascii "| --> Error continues in next line.")
    else []

/-- **Every block can be drawn**, about whatever span: its offset is on the line that is quoted, and the
    number of the line is one narrower than its field. -/
theorem errorBlock?_eq (source message : Bytes) (span : Span) :
    errorBlock? source message span = some (errorBlock source message span) := by
  obtain ⟨above, front, -, -, -, -, hplace⟩ := exists_location source span.offset
  have hcolumn : (Location.ofOffset source span.offset).column ≤
      (Location.ofOffset source span.offset).lineText.length := by
    rw [hplace, List.length_append]
    exact Nat.le_add_right _ _
  have hnumber := Decimal.length_numeral (Location.ofOffset source span.offset).line
  rw [errorBlock?, Location.ofOffset?_eq, errorBlock]
  generalize Location.ofOffset source span.offset = place at hcolumn hnumber
  have hwidth : Decimal.digitCount place.line + 2 - 1 = Decimal.digitCount place.line + 1 := rfl
  have hfield : (Decimal.numeral place.line).length ≤ Decimal.digitCount place.line + 1 := by omega
  simp only [Option.bind_eq_bind, Option.bind_some, difference?_eq hcolumn,
    difference?_eq (show 1 ≤ Decimal.digitCount place.line + 2 by omega), hwidth, difference?_eq hfield]
  rfl

end LoxLexer
