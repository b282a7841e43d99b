import LoxLexer.Proofs.Addressing
import LoxLexer.Proofs.Numerals
import LoxLexer.Proofs.Reporting

/-!
# `LoxLexer.Proofs.Rendering` — the carets of a block are below the bytes of its span

A block is four lines or five. The line number and the blank margins are made in different ways, one by
writing the number and the other by counting its digits, and the bars of all lines are still in one column.
Behind the bar, the third line quotes the line of the text on which the span starts, and the fourth has a
caret below each byte of the span that is on this line. A fifth line tells that the span goes on, and it is
there if and only if a newline is among the bytes of the span.

## Contents
- `idxOf?_append_cons`, `idxsOf_append_replicate` — the first place of a byte, and all of its places.
- `LongestUnbroken` — the longest beginning without a newline; `firstLine` is that.
- `barColumn`, `quotedColumn` — the columns of the bar and of a quoted byte.
- `linesBelow` — the lines of a block; `errorBlock_eq_linesBelow` — that they are.
- `rendered_errorBlock` — their columns, for every span inside the text.
-/

namespace LoxLexer

/-! ## Places of a byte -/

theorem idxOf?_append_cons {x : UInt8} {front : Bytes} (h : x ∉ front) (rest : Bytes) :
    (front ++ x :: rest).idxOf? x = some front.length := by
  induction front with
  | nil => simp [List.idxOf?_cons]
  | cons b front ih =>
    rw [List.mem_cons, not_or] at h
    simp [List.idxOf?_cons, Ne.symm h.1, ih h.2]

theorem idxsOf_replicate (x : UInt8) (n start : Nat) :
    (List.replicate n x).idxsOf x start = List.range' start n := by
  induction n generalizing start with
  | zero => rfl
  | succ n ih => simp [List.replicate_succ, List.idxsOf_cons, ih, List.range'_succ]

theorem idxsOf_append_replicate {x : UInt8} {front : Bytes} (h : x ∉ front) (n : Nat) :
    (front ++ List.replicate n x).idxsOf x = (List.range n).map (front.length + ·) := by
  have hfront : front.idxsOf x = [] := by
    rw [List.idxsOf_eq_nil_iff]
    intro y hy
    rw [beq_eq_false_iff_ne]
    rintro rfl
    exact h hy
  rw [List.idxsOf_append, hfront, idxsOf_replicate, List.nil_append, Nat.zero_add,
    List.range'_eq_map_range]

/-! ## Longest beginnings on one line -/

/-- `marked` is the longest beginning of the text without a newline. -/
structure LongestUnbroken (text marked : Bytes) : Prop where
  start : marked <+: text
  unbroken : newline ∉ marked
  longest : ∀ other, other <+: text → newline ∉ other → other.length ≤ marked.length

theorem longestUnbroken_firstLine (text : Bytes) : LongestUnbroken text (firstLine text) where
  start := List.takeWhile_prefix _
  unbroken := newline_not_mem_firstLine text
  longest := by
    rintro other ⟨more, rfl⟩ hother
    rw [firstLine_append_of_not_mem hother, List.length_append]
    exact Nat.le_add_right _ _

/-- The first line is shorter than the text where there is a newline to end it. -/
theorem length_firstLine_lt_iff {text : Bytes} :
    (firstLine text).length < text.length ↔ newline ∈ text := by
  obtain ⟨behind, htext, hbehind⟩ := exists_behind_firstLine text
  have hlength := congrArg List.length htext
  rw [List.length_append] at hlength
  cases behind with
  | nil =>
    have hnot : newline ∉ text := by
      rw [htext, List.append_nil]
      exact newline_not_mem_firstLine text
    simpa [hnot] using hlength.le
  | cons b rest =>
    have hmem : newline ∈ text := by
      rw [htext, hbehind b rfl]
      simp
    simp only [hmem, iff_true, hlength, List.length_cons]
    omega

/-! ## Columns -/

/-- The byte between the margin and the text. -/
def bar : UInt8 := '|'.toUInt8

/-- The byte that underlines. -/
def caret : UInt8 := '^'.toUInt8

/-- The column of the bar, by the number of digits that the line number has. -/
def barColumn (place : Location) : Nat := (Nat.digits 10 place.line).length + 2

/-- The column in which the quoted line has the byte at an offset of the text. -/
def quotedColumn (place : Location) (offset : Nat) : Nat :=
  barColumn place + 2 + (offset - place.lineStart)

/-- A line with nothing in front of its bar. -/
def underNumber (place : Location) (rest : Bytes) : Bytes := spaces (barColumn place) ++ bar :: rest

/-- The line number and the line. -/
def quotedLine (place : Location) : Bytes :=
  ascii " " ++ Decimal.numeral place.line ++ ascii " | " ++ place.lineText

/-- So many carets, from the column of the location on. -/
def markerLine (place : Location) (carets : Nat) : Bytes :=
  underNumber place (ascii " " ++ spaces place.column ++ List.replicate carets caret)

/-- The lines of a block below its message. -/
def linesBelow (place : Location) (carets : Nat) (goesOn : Prop) [Decidable goesOn] : List Bytes :=
  [underNumber place [], quotedLine place, markerLine place carets] ++
    if goesOn then [underNumber place (ascii " --> Error continues in next line.")] else []

variable {place : Location} {carets : Nat} {goesOn : Prop} [Decidable goesOn]

theorem not_mem_spaces {b : UInt8} (h : b ≠ 0x20) (n : Nat) : b ∉ spaces n := by
  simp [spaces, List.mem_replicate, h]

theorem length_numeral_line (h : 0 < place.line) :
    (Decimal.numeral place.line).length + 2 = barColumn place := by
  rw [Decimal.length_numeral, Decimal.digitCount_eq_length_digits h, barColumn]

theorem idxOf?_bar_underNumber (place : Location) (rest : Bytes) :
    (underNumber place rest).idxOf? bar = some (barColumn place) := by
  rw [underNumber, idxOf?_append_cons (not_mem_spaces (by decide) _), length_spaces]

theorem idxOf?_bar_quotedLine (h : 0 < place.line) :
    (quotedLine place).idxOf? bar = some (barColumn place) := by
  have hsplit : quotedLine place =
      (ascii " " ++ Decimal.numeral place.line ++ ascii " ") ++ bar :: (ascii " " ++ place.lineText) := by
    have hascii : ascii " | " = ascii " " ++ bar :: ascii " " := rfl
    simp only [quotedLine, hascii, List.append_assoc, List.cons_append]
  have hfront : bar ∉ ascii " " ++ Decimal.numeral place.line ++ ascii " " := by
    simp only [List.mem_append, not_or]
    exact ⟨⟨by decide, Decimal.not_mem_numeral (by decide) _⟩, by decide⟩
  have hlength : (ascii " " ++ Decimal.numeral place.line ++ ascii " ").length = barColumn place := by
    rw [← length_numeral_line h, List.length_append, List.length_append]
    show 1 + _ + 1 = _
    omega
  rw [hsplit, idxOf?_append_cons hfront, hlength]

/-- **The bars are in one column**, however many digits the line number has. -/
theorem idxOf?_bar_of_mem_linesBelow (h : 0 < place.line) :
    ∀ line ∈ linesBelow place carets goesOn, line.idxOf? bar = some (barColumn place) := by
  intro line hline
  rcases List.mem_append.mp hline with hline | hline
  · simp only [List.mem_cons, List.not_mem_nil, or_false] at hline
    rcases hline with rfl | rfl | rfl
    · exact idxOf?_bar_underNumber place _
    · exact idxOf?_bar_quotedLine h
    · exact idxOf?_bar_underNumber place _
  · split at hline
    · rw [List.mem_singleton.mp hline]
      exact idxOf?_bar_underNumber place _
    · cases hline

theorem newline_not_mem_underNumber {rest : Bytes} (h : newline ∉ rest) :
    newline ∉ underNumber place rest := by
  rw [underNumber, List.mem_append, List.mem_cons]
  rintro (hspaces | hbar | hrest)
  · exact not_mem_spaces (by decide) _ hspaces
  · exact absurd hbar (by decide)
  · exact h hrest

theorem newline_not_mem_linesBelow (h : newline ∉ place.lineText) :
    ∀ line ∈ linesBelow place carets goesOn, newline ∉ line := by
  intro line hline
  rcases List.mem_append.mp hline with hline | hline
  · simp only [List.mem_cons, List.not_mem_nil, or_false] at hline
    rcases hline with rfl | rfl | rfl
    · exact newline_not_mem_underNumber List.not_mem_nil
    · simp only [quotedLine, List.mem_append, not_or]
      exact ⟨⟨⟨by decide, Decimal.not_mem_numeral (by decide) _⟩, by decide⟩, h⟩
    · apply newline_not_mem_underNumber
      simp only [List.mem_append, List.mem_replicate, not_or, not_and]
      exact ⟨⟨by decide, not_mem_spaces (by decide) _⟩, fun _ => by decide⟩
  · split at hline
    · rw [List.mem_singleton.mp hline]
      exact newline_not_mem_underNumber (by decide)
    · cases hline

/-- The quoted line has the bytes of the line behind its margin. -/
theorem getElem?_quotedLine (h : 0 < place.line) (i : Nat) :
    (quotedLine place)[barColumn place + 2 + i]? = place.lineText[i]? := by
  have hmargin : (ascii " " ++ Decimal.numeral place.line ++ ascii " | ").length =
      barColumn place + 2 := by
    rw [← length_numeral_line h, List.length_append, List.length_append]
    show 1 + _ + 3 = _
    omega
  rw [quotedLine, ← hmargin, List.getElem?_append_right (Nat.le_add_right _ _), Nat.add_sub_cancel_left]

/-- The carets of a marker line start in the column of the location. -/
theorem idxsOf_caret_markerLine (place : Location) (carets : Nat) :
    (markerLine place carets).idxsOf caret =
      (List.range carets).map (barColumn place + 2 + place.column + ·) := by
  have hsplit : markerLine place carets =
      (spaces (barColumn place) ++ bar :: (ascii " " ++ spaces place.column)) ++
        List.replicate carets caret := by
    simp only [markerLine, underNumber, List.append_assoc, List.cons_append]
  have hfront : caret ∉ spaces (barColumn place) ++ bar :: (ascii " " ++ spaces place.column) := by
    simp only [List.mem_append, List.mem_cons, not_or]
    exact ⟨not_mem_spaces (by decide) _, by decide, by decide, not_mem_spaces (by decide) _⟩
  have hlength : (spaces (barColumn place) ++ bar :: (ascii " " ++ spaces place.column)).length =
      barColumn place + 2 + place.column := by
    rw [List.length_append, List.length_cons, List.length_append, length_spaces, length_spaces]
    show _ + (1 + _ + 1) = _
    omega
  rw [hsplit, idxsOf_append_replicate hfront, hlength]

/-! ## Blocks -/

/-- In a field one wider than itself, a number has one space in front. -/
theorem rightAlign_numeral (n : Nat) :
    rightAlign (Decimal.digitCount n + 1) (Decimal.numeral n) = ascii " " ++ Decimal.numeral n := by
  rw [rightAlign, Decimal.length_numeral, Nat.add_sub_cancel_left]
  rfl

/-- **A block and its columns**, for a span that starts at `place` and has `marked` on its first line. -/
structure Rendered (text message : Bytes) (span : Span) (place : Location) (marked : Bytes) : Prop where
  locates : Locates text span.offset place
  longest : LongestUnbroken (span.slice text) marked
  /-- The last line is there if and only if a newline is among the bytes of the span. -/
  block : errorBlock text message span =
    (message :: linesBelow place marked.length (newline ∈ span.slice text)).flatMap endLine
  lines : ∀ line ∈ message :: linesBelow place marked.length (newline ∈ span.slice text), newline ∉ line
  bars : ∀ line ∈ linesBelow place marked.length (newline ∈ span.slice text),
    line.idxOf? bar = some (barColumn place)
  /-- Each byte of the line stands in its column of the quoted line. -/
  quoted : ∀ offset, place.lineStart ≤ offset → offset < place.lineStart + place.lineText.length →
    (quotedLine place)[quotedColumn place offset]? = text[offset]?
  /-- The bytes that are marked are on the line, and the carets are in their columns. -/
  inside : span.offset + marked.length ≤ place.lineStart + place.lineText.length
  carets : (markerLine place marked.length).idxsOf caret =
    (List.range marked.length).map fun k => quotedColumn place (span.offset + k)

theorem newline_not_mem_lineText (text : Bytes) (offset : Nat) :
    newline ∉ (Location.ofOffset text offset).lineText := newline_not_mem_firstLine _

/-- The bytes of the line are those of the text from the start of the line on. -/
theorem getElem?_lineText {text : Bytes} {offset i : Nat}
    (h : i < (Location.ofOffset text offset).lineText.length) :
    (Location.ofOffset text offset).lineText[i]? = text[(Location.ofOffset text offset).lineStart + i]? := by
  obtain ⟨rest, hrest⟩ : (Location.ofOffset text offset).lineText <+:
      text.drop (Location.ofOffset text offset).lineStart := List.takeWhile_prefix _
  rw [← List.getElem?_drop, ← hrest, List.getElem?_append_left h]

/-- **The block of a location**, line by line. -/
theorem errorBlock_eq_linesBelow {text : Bytes} {span : Span} (hspan : span.offset + span.length ≤ text.length)
    (message : Bytes) : errorBlock text message span =
      (message :: linesBelow (Location.ofOffset text span.offset) (firstLine (span.slice text)).length
        (newline ∈ span.slice text)).flatMap endLine := by
  obtain ⟨above, front, behind, haround⟩ := exists_around (Nat.le_of_add_right_le hspan)
  have hblock := haround.errorBlock_eq rfl message
  have hlength : (span.slice text).length = span.length := by
    rw [Span.slice, List.length_take, List.length_drop]
    omega
  have hgoesOn : (firstLine (span.slice text)).length < span.length ↔ newline ∈ span.slice text := by
    rw [← hlength]
    exact length_firstLine_lt_iff
  have hdigits : Decimal.digitCount (1 + above.count newline) + 2 =
      barColumn (Location.ofOffset text span.offset) := by
    rw [haround.location_eq, barColumn, Decimal.digitCount_eq_length_digits (Nat.add_pos_left Nat.one_pos _)]
  simp only [hgoesOn, hdigits, rightAlign_numeral] at hblock
  -- the bar is split from what is behind it, and then the two sides differ in their brackets only
  have hempty : ascii "|" = [bar] := rfl
  have hbar : ascii "| " = bar :: ascii " " := rfl
  have hclosing : ascii "| --> Error continues in next line." =
      bar :: ascii " --> Error continues in next line." := rfl
  have hcaret : '^'.toUInt8 = caret := rfl
  rw [hblock, hempty, hbar, hclosing, hcaret]
  simp only [linesBelow, markerLine, quotedLine, underNumber, haround.location_eq]
  by_cases hmem : newline ∈ span.slice text
  · simp only [if_pos hmem, List.flatMap_cons, List.flatMap_nil, List.append_assoc, List.cons_append,
      List.nil_append, List.append_nil]
  · simp only [if_neg hmem, List.flatMap_cons, List.flatMap_nil, List.append_assoc, List.cons_append,
      List.append_nil]

/-- **Carets sit under the span.** -/
theorem rendered_errorBlock {text message : Bytes} {span : Span} (hmessage : newline ∉ message)
    (hspan : span.offset + span.length ≤ text.length) :
    Rendered text message span (Location.ofOffset text span.offset) (firstLine (span.slice text)) := by
  have hlocates := locates_ofOffset text span.offset
  have hline : 0 < (Location.ofOffset text span.offset).line := hlocates.one_le_line
  have hoffset := hlocates.offset
  rw [Nat.min_eq_left (Nat.le_of_add_right_le hspan)] at hoffset
  constructor
  · exact hlocates
  · exact longestUnbroken_firstLine _
  · exact errorBlock_eq_linesBelow hspan message
  · exact List.forall_mem_cons.mpr
      ⟨hmessage, newline_not_mem_linesBelow (newline_not_mem_lineText text span.offset)⟩
  · exact idxOf?_bar_of_mem_linesBelow hline
  · intro offset hstart hstop
    rw [quotedColumn, getElem?_quotedLine hline, getElem?_lineText (by omega), Nat.add_sub_cancel' hstart]
  · obtain ⟨above, front, behind, haround⟩ := exists_around (Nat.le_of_add_right_le hspan)
    rw [haround.location_eq, ← haround.offset]
    simp only [List.length_append]
    omega
  · rw [idxsOf_caret_markerLine]
    apply List.map_congr_left
    intro k _
    have hcolumn : span.offset + k - (Location.ofOffset text span.offset).lineStart =
        (Location.ofOffset text span.offset).column + k := by
      omega
    rw [quotedColumn, hcolumn, Nat.add_assoc]

/-- A span with the end of its line and the start of the next one has one caret. -/
theorem rendered_errorBlock_twoLines :
    newline ∉ ascii "no" ∧ 3 + 3 ≤ (ascii "a\nbc\nd").length ∧
      Rendered (ascii "a\nbc\nd") (ascii "no") ⟨3, 3⟩ ⟨2, 1, 2, ascii "bc"⟩ (ascii "c") :=
  ⟨by decide, by decide, rendered_errorBlock (by decide) (by decide)⟩

end LoxLexer
