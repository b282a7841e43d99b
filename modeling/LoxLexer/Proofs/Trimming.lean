import LoxLexer.Proofs.Addressing
import LoxLexer.Proofs.Unifying

/-!
# `LoxLexer.Proofs.Trimming` — unifying line endings trims lines

Unifying goes through the bytes of a text and judges each by the byte behind it. In terms of lines it does
something to each line by itself: a line that a newline ends loses one carriage return at its end, if it has
any, and the last line, which no newline ends, loses none. Hence lines keep their numbers, and all other
bytes stay, in their order.

Both sides are followed from one line to the next: a text has no newline, or it is a line without one, a
newline, and a text (`List.eq_append_cons_of_mem`).

## Contents
- `trimReturn`, `unifyNewlines_line` — a line and what becomes of it, with the text behind it.
- `trimInner`, `split_unifyNewlines` — all lines.
- `ReturnAt`, `keptOffsets`, `unifyNewlines_eq_filterMap` — which bytes are dropped, by the byte behind.
- `EndsInnerLine`, `returnAt_iff` — the same by the lines.
- `ActsByLine`, `unifyNewlines_actsByLine` — lines and bytes together.
-/

namespace LoxLexer

/-! ## Lines -/

/-- The line without one carriage return at its end, if there is one. -/
def trimReturn (line : Bytes) : Bytes :=
  if line.getLast? = some carriageReturn then line.dropLast else line

theorem trimReturn_concat (front : Bytes) : trimReturn (front ++ [carriageReturn]) = front := by
  rw [trimReturn, List.getLast?_concat, if_pos rfl, List.dropLast_concat]

theorem newline_not_mem_trimReturn {line : Bytes} (h : newline ∉ line) : newline ∉ trimReturn line := by
  unfold trimReturn
  split
  · exact fun hmem => h (List.dropLast_subset line hmem)
  · exact h

theorem unifyNewlines_of_newline_not_mem {text : Bytes} (h : newline ∉ text) :
    unifyNewlines text = text := by
  rw [unifyNewlines_eq_dropBefore, dropBefore_of_not_mem (Or.inr h)]

theorem unifyNewlines_newline (rest : Bytes) :
    unifyNewlines (newline :: rest) = newline :: unifyNewlines rest := by
  rw [unifyNewlines_eq_dropBefore, unifyNewlines_eq_dropBefore, dropBefore_cons_of_ne (by decide)]

/-- **A line is trimmed**, and the text behind its newline is unified by itself. -/
theorem unifyNewlines_line {line : Bytes} (h : newline ∉ line) (rest : Bytes) :
    unifyNewlines (line ++ newline :: rest) = trimReturn line ++ newline :: unifyNewlines rest := by
  by_cases hreturn : line.getLast? = some carriageReturn
  · obtain ⟨front, rfl⟩ := List.getLast?_eq_some_iff.mp hreturn
    have hfront : newline ∉ front := fun hmem => h (List.mem_append_left _ hmem)
    -- the text is cut in front of the carriage return, which is dropped from the second part
    have hseam : NoSeam carriageReturn newline front (carriageReturn :: newline :: rest) := by
      rintro ⟨-, hhead⟩
      cases hhead
    have hdrop : unifyNewlines (carriageReturn :: newline :: rest) = unifyNewlines (newline :: rest) := by
      rw [unifyNewlines, if_pos ⟨rfl, rfl⟩]
    rw [trimReturn_concat, List.append_assoc, List.singleton_append, unifyNewlines_append hseam, hdrop,
      unifyNewlines_newline, unifyNewlines_of_newline_not_mem hfront]
  · have hseam : NoSeam carriageReturn newline line (newline :: rest) := fun hboth => hreturn hboth.1
    rw [trimReturn, if_neg hreturn, unifyNewlines_append hseam, unifyNewlines_newline,
      unifyNewlines_of_newline_not_mem h]

/-- Every line trimmed but the last. -/
def trimInner (lines : List Bytes) : List Bytes :=
  lines.dropLast.map trimReturn ++ lines.getLast?.toList

theorem trimInner_singleton (line : Bytes) : trimInner [line] = [line] := rfl

theorem trimInner_cons (line : Bytes) {lines : List Bytes} (h : lines ≠ []) :
    trimInner (line :: lines) = trimReturn line :: trimInner lines := by
  obtain ⟨next, more, rfl⟩ := List.exists_cons_of_ne_nil h
  rw [trimInner, List.dropLast_cons_of_ne_nil h, List.getLast?_cons_cons]
  rfl

theorem length_trimInner {lines : List Bytes} (h : lines ≠ []) :
    (trimInner lines).length = lines.length := by
  have hlast := List.getLast?_eq_some_getLast h
  have hpos := List.length_pos_iff.mpr h
  rw [trimInner, List.length_append, List.length_map, List.length_dropLast, hlast, Option.toList_some,
    List.length_singleton]
  omega

theorem getElem?_trimInner {lines : List Bytes} {line : Bytes} {i : Nat} (h : lines[i]? = some line)
    (hinner : i + 1 < lines.length) : (trimInner lines)[i]? = some (trimReturn line) := by
  have hfront : i < lines.dropLast.length := by
    rw [List.length_dropLast]
    omega
  rw [trimInner, List.getElem?_append_left (by rwa [List.length_map]), List.getElem?_map,
    List.getElem?_dropLast, if_pos (by omega), h, Option.map_some]

theorem getLast?_trimInner {lines : List Bytes} (h : lines ≠ []) :
    (trimInner lines).getLast? = lines.getLast? := by
  rw [trimInner, List.getLast?_eq_some_getLast h, Option.toList_some, List.getLast?_concat]

theorem split_ne_nil (sep : UInt8) (text : Bytes) : split sep text ≠ [] := by
  rw [← List.length_pos_iff, length_split]
  exact Nat.succ_pos _

/-- The first line, its newline, and the other lines. -/
theorem split_line {line : Bytes} (h : newline ∉ line) (rest : Bytes) :
    split newline (line ++ newline :: rest) = line :: split newline rest := by
  rw [split_append_cons, split_of_not_mem h, List.singleton_append]

/-- **All lines**: every line is trimmed but the last. -/
theorem split_unifyNewlines (text : Bytes) :
    split newline (unifyNewlines text) = trimInner (split newline text) := by
  induction hlength : text.length using Nat.strong_induction_on generalizing text with
  | _ n ih =>
    by_cases hmem : newline ∈ text
    · obtain ⟨line, rest, rfl, hline⟩ := List.eq_append_cons_of_mem hmem
      have hshort : rest.length < n := by
        rw [← hlength, List.length_append, List.length_cons]
        omega
      rw [unifyNewlines_line hline, split_line (newline_not_mem_trimReturn hline), split_line hline,
        trimInner_cons line (split_ne_nil newline rest), ih _ hshort rest rfl]
    · rw [unifyNewlines_of_newline_not_mem hmem, split_of_not_mem hmem, trimInner_singleton]

/-! ## Bytes -/

/-- The byte at the offset is a carriage return, and a newline is behind it. -/
def ReturnAt (text : Bytes) (offset : Nat) : Prop :=
  text[offset]? = some carriageReturn ∧ text[offset + 1]? = some newline

instance (text : Bytes) : DecidablePred (ReturnAt text) := fun _ => inferInstanceAs (Decidable (_ ∧ _))

/-- The offsets of all other bytes, in their order. -/
def keptOffsets (text : Bytes) : List Nat :=
  (List.range text.length).filter fun offset => ¬ ReturnAt text offset

theorem mem_keptOffsets {text : Bytes} {offset : Nat} :
    offset ∈ keptOffsets text ↔ offset < text.length ∧ ¬ ReturnAt text offset := by
  rw [keptOffsets, List.mem_filter, List.mem_range, decide_eq_true_iff]

theorem pairwise_keptOffsets (text : Bytes) : (keptOffsets text).Pairwise (· < ·) :=
  List.pairwise_lt_range.filter _

theorem keptOffsets_cons (b : UInt8) (rest : Bytes) : keptOffsets (b :: rest) =
    (if b = carriageReturn ∧ rest.head? = some newline then [] else [0]) ++
      (keptOffsets rest).map Nat.succ := by
  have hhere : ReturnAt (b :: rest) 0 ↔ b = carriageReturn ∧ rest.head? = some newline := by
    rw [ReturnAt, List.getElem?_cons_zero, Option.some.injEq, List.getElem?_cons_succ,
      List.head?_eq_getElem?]
  have hbehind : ((List.range rest.length).map Nat.succ).filter
      (fun offset => ¬ ReturnAt (b :: rest) offset) = (keptOffsets rest).map Nat.succ := by
    rw [List.filter_map]
    rfl
  rw [keptOffsets, List.length_cons, List.range_succ_eq_map, List.filter_cons, hbehind]
  by_cases hdrop : ReturnAt (b :: rest) 0
  · rw [if_neg (by simp [hdrop]), if_pos (hhere.mp hdrop), List.nil_append]
  · rw [if_pos (by simp [hdrop]), if_neg (mt hhere.mpr hdrop), List.singleton_append]

/-- **All other bytes are kept**, in their order. -/
theorem unifyNewlines_eq_filterMap (text : Bytes) :
    unifyNewlines text = (keptOffsets text).filterMap (text[·]?) := by
  induction text with
  | nil => rfl
  | cons b rest ih =>
    have hrest : ((keptOffsets rest).map Nat.succ).filterMap ((b :: rest)[·]?) = unifyNewlines rest := by
      rw [ih, List.filterMap_map]
      rfl
    rw [keptOffsets_cons, List.filterMap_append, hrest, unifyNewlines]
    split <;> rfl

/-- The offset is that of a carriage return at the end of a line, and the line is not the last. -/
def EndsInnerLine (text : Bytes) (offset : Nat) : Prop :=
  ∃ i line, (split newline text)[i]? = some line ∧ i + 1 < (split newline text).length ∧
    line.getLast? = some carriageReturn ∧
    offset + 1 = lineOffset (split newline text) i + line.length

/-- A line that is not the last stands in the text where it should, with a newline behind it. -/
theorem exists_around_line {text line : Bytes} {i : Nat} (hline : (split newline text)[i]? = some line)
    (hinner : i + 1 < (split newline text).length) : ∃ above below,
      text = above ++ (line ++ newline :: below) ∧ above.length = lineOffset (split newline text) i := by
  induction i generalizing text with
  | zero =>
    have hmem : newline ∈ text := by
      by_contra hmem
      rw [split_of_not_mem hmem] at hinner
      cases hinner with
      | step h => cases h
    obtain ⟨first, rest, rfl, hfirst⟩ := List.eq_append_cons_of_mem hmem
    rw [split_line hfirst] at hline
    obtain rfl := Option.some.inj hline
    exact ⟨[], rest, rfl, rfl⟩
  | succ i ih =>
    have hmem : newline ∈ text := by
      by_contra hmem
      rw [split_of_not_mem hmem] at hline
      cases hline
    obtain ⟨first, rest, rfl, hfirst⟩ := List.eq_append_cons_of_mem hmem
    rw [split_line hfirst] at hline hinner ⊢
    obtain ⟨above, below, rfl, hlength⟩ := ih hline (Nat.lt_of_succ_lt_succ hinner)
    refine ⟨first ++ newline :: above, below, ?_, ?_⟩
    · simp only [List.append_assoc, List.cons_append]
    · rw [List.length_append, List.length_cons, hlength, lineOffset, lineOffset, List.take_succ_cons,
        List.map_cons, List.sum_cons]
      omega

theorem EndsInnerLine.returnAt {text : Bytes} {offset : Nat} (h : EndsInnerLine text offset) :
    ReturnAt text offset := by
  obtain ⟨i, line, hline, hinner, hlast, hoffset⟩ := h
  obtain ⟨above, below, rfl, hlength⟩ := exists_around_line hline hinner
  obtain ⟨front, rfl⟩ := List.getLast?_eq_some_iff.mp hlast
  rw [← hlength, List.length_append, List.length_singleton] at hoffset
  obtain rfl : offset = above.length + front.length := by omega
  constructor
  · simp
  · simp [Nat.add_assoc]

/-- In front of the newline there are closed lines and one line more, with the carriage return at its end. -/
theorem ReturnAt.exists_around {text : Bytes} {offset : Nat} (h : ReturnAt text offset) :
    ∃ above line below, text = above ++ (line ++ newline :: below) ∧
      ClosedLines above ∧ newline ∉ line ∧ (above ++ line).length = offset + 1 ∧
      line.getLast? = some carriageReturn := by
  obtain ⟨hreturn, hnewline⟩ := h
  have hinside : offset + 1 < text.length := (List.getElem?_eq_some_iff.mp hnewline).1
  obtain ⟨above, line, htext, habove, hline, hlength, -⟩ := exists_location text (offset + 1)
  rw [Nat.min_eq_left hinside.le] at hlength
  rw [← List.head?_drop] at hnewline
  obtain ⟨below, hbelow⟩ := List.head?_eq_some_iff.mp hnewline
  have hbefore : (above ++ line).getLast? = some carriageReturn := by
    have hsame : text[offset]? = (above ++ line)[offset]? := by
      conv_lhs => rw [htext]
      exact List.getElem?_append_left (by omega)
    rw [List.getLast?_eq_getElem?, hlength, Nat.add_sub_cancel, ← hsame, hreturn]
  -- a newline is no carriage return, so the line is not empty
  have hne : line ≠ [] := by
    rintro rfl
    rw [List.append_nil] at hbefore
    exact absurd (habove _ hbefore) (by decide)
  rw [List.getLast?_append_of_ne_nil _ hne] at hbefore
  exact ⟨above, line, below, by rw [htext, hbelow, List.append_assoc], habove, hline, hlength, hbefore⟩

theorem ReturnAt.endsInnerLine {text : Bytes} {offset : Nat} (h : ReturnAt text offset) :
    EndsInnerLine text offset := by
  obtain ⟨above, line, below, rfl, habove, hline, hlength, hlast⟩ := h.exists_around
  obtain ⟨lines, -, hsum, hsplit⟩ := exists_lines_of_closedLines habove
  have hlines : split newline (above ++ (line ++ newline :: below)) =
      lines ++ line :: split newline below := by rw [hsplit, split_line hline]
  have hmore := List.length_pos_iff.mpr (split_ne_nil newline below)
  refine ⟨lines.length, line, ?_, ?_, hlast, ?_⟩
  · rw [hlines, List.getElem?_append_right (Nat.le_refl _), Nat.sub_self, List.getElem?_cons_zero]
  · rw [hlines, List.length_append, List.length_cons]
    omega
  · rw [hlines, lineOffset, List.take_left, hsum, ← List.length_append, hlength]

/-- **What is dropped**, by the byte behind it and by the lines. -/
theorem returnAt_iff {text : Bytes} {offset : Nat} : ReturnAt text offset ↔ EndsInnerLine text offset :=
  ⟨ReturnAt.endsInnerLine, EndsInnerLine.returnAt⟩

/-! ## Lines and bytes -/

/-- **Line endings are unified line by line**: the lines stay as many, each is trimmed but the last, and what
    is kept are all bytes but the carriage returns trimmed, in their order. -/
structure ActsByLine (text : Bytes) : Prop where
  length_eq : (split newline (unifyNewlines text)).length = (split newline text).length
  inner : ∀ {i line}, (split newline text)[i]? = some line → i + 1 < (split newline text).length →
    (split newline (unifyNewlines text))[i]? = some (trimReturn line)
  last : (split newline (unifyNewlines text)).getLast? = (split newline text).getLast?
  kept : ∃ offsets : List Nat, offsets.Pairwise (· < ·) ∧
    (∀ offset, offset ∈ offsets ↔ offset < text.length ∧ ¬ EndsInnerLine text offset) ∧
    unifyNewlines text = offsets.filterMap (text[·]?)

/-- **Unifying trims lines**, whatever the text is. -/
theorem unifyNewlines_actsByLine (text : Bytes) : ActsByLine text := by
  have hne := split_ne_nil newline text
  refine ⟨?_, ?_, ?_, keptOffsets text, pairwise_keptOffsets text, ?_, unifyNewlines_eq_filterMap text⟩
  · rw [split_unifyNewlines, length_trimInner hne]
  · intro i line hline hinner
    rw [split_unifyNewlines, getElem?_trimInner hline hinner]
  · rw [split_unifyNewlines, getLast?_trimInner hne]
  · intro offset
    rw [mem_keptOffsets, returnAt_iff]

/-- Of two carriage returns one is trimmed, and one at the end of the text stays. -/
example : split newline (unifyNewlines (ascii "a\r\r\n\r\nb\r")) =
    [ascii "a\r", ascii "", ascii "b\r"] := by decide

end LoxLexer
