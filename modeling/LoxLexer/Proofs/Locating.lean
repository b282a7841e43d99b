import LoxLexer.Diagnostic.Location
import Mathlib.Data.List.TakeWhile

/-!
# `LoxLexer.Proofs.Locating` — the line that holds an offset

`Location.ofOffset` counts newlines before an offset, measures back to the last of them and reads on to the
next one. Here the three measures are brought together: whatever stands before the offset is taken apart
into the lines **above**, each closed by its newline, and the **front** of the line that the offset is on.
The location is then read off the parts, and nothing later has to count again.

## Contents
- `ClosedLines` — a text that is nothing but whole lines. `exists_front` takes any text apart.
- `firstLine_append_of_not_mem`, `exists_behind_firstLine` — where the first line of a text ends.
- `location_append` — the location of an offset, by the parts before and behind it. `exists_location` is the
  same for any offset at all.
-/

namespace LoxLexer

/-- The text is whole lines: it is empty or ends in a newline. -/
def ClosedLines (text : Bytes) : Prop := ∀ b ∈ text.getLast?, b = newline

/-- A first part without a newline belongs to the first line. -/
theorem firstLine_append_of_not_mem {front : Bytes} (h : newline ∉ front) (rest : Bytes) :
    firstLine (front ++ rest) = front ++ firstLine rest := by
  apply List.takeWhile_append_of_pos
  intro b hb
  rw [bne_iff_ne]
  rintro rfl
  exact h hb

theorem newline_not_mem_firstLine (text : Bytes) : newline ∉ firstLine text := by
  intro hmem
  have hkept := List.mem_takeWhile_imp hmem
  simp at hkept

/-- Behind its first line, a text is at its end or goes on with a newline. -/
theorem exists_behind_firstLine (text : Bytes) :
    ∃ behind, text = firstLine text ++ behind ∧ ∀ b ∈ behind.head?, b = newline := by
  refine ⟨text.dropWhile (· != newline), List.takeWhile_append_dropWhile.symm, ?_⟩
  intro b hb
  have hstop := List.head?_dropWhile_not (· != newline) text
  rw [Option.mem_def.mp hb] at hstop
  simpa using hstop

/-- **Every text is whole lines and the front of one more.** -/
theorem exists_front (text : Bytes) :
    ∃ above front, text = above ++ front ∧ ClosedLines above ∧ newline ∉ front := by
  -- the front is the first line of the text read backwards
  obtain ⟨behind, hsplit, hbehind⟩ := exists_behind_firstLine text.reverse
  refine ⟨behind.reverse, (firstLine text.reverse).reverse, ?_, ?_, ?_⟩
  · rw [← List.reverse_append, ← hsplit, List.reverse_reverse]
  · intro b hb
    rw [List.getLast?_reverse] at hb
    exact hbehind b hb
  · rw [List.mem_reverse]
    exact newline_not_mem_firstLine text.reverse

/-- Read backwards from the offset, the line ends where the lines above it begin. -/
theorem firstLine_reverse_append {above front : Bytes} (habove : ClosedLines above)
    (hfront : newline ∉ front) : firstLine (above ++ front).reverse = front.reverse := by
  rw [List.reverse_append, firstLine_append_of_not_mem (by rwa [List.mem_reverse])]
  have hnil : firstLine above.reverse = [] := by
    cases hlast : above.reverse with
    | nil => rfl
    | cons b rest =>
      have hb : b = newline := by
        apply habove
        rw [List.getLast?_eq_head?_reverse, hlast]
        rfl
      rw [firstLine, hb, List.takeWhile_cons_of_neg (by simp)]
  rw [hnil, List.append_nil]

/-- **The location of an offset.** As many lines lie above it as `above` has newlines; its line starts
    behind them and consists of the front before the offset and of the text behind it up to the next
    newline. -/
theorem location_append {above front : Bytes} (habove : ClosedLines above) (hfront : newline ∉ front)
    (rest : Bytes) : Location.ofOffset (above ++ front ++ rest) (above ++ front).length =
      { line := 1 + above.count newline
        column := front.length
        lineStart := above.length
        lineText := front ++ firstLine rest } := by
  have hcount : (above ++ front).count newline = above.count newline := by
    rw [List.count_append, List.count_eq_zero.mpr hfront, Nat.add_zero]
  have hcolumn : (firstLine (above ++ front).reverse).length = front.length := by
    rw [firstLine_reverse_append habove hfront, List.length_reverse]
  have hstart : (above ++ front).length - front.length = above.length := by
    rw [List.length_append, Nat.add_sub_cancel]
  simp only [Location.ofOffset, List.take_left, hcount, hcolumn, hstart]
  rw [List.append_assoc, List.drop_left, firstLine_append_of_not_mem hfront]

/-- Every offset has a location of this kind. Behind the end of the text it is that of the end. -/
theorem exists_location (source : Bytes) (offset : Nat) : ∃ above front,
    source = above ++ front ++ source.drop offset ∧ ClosedLines above ∧ newline ∉ front ∧
      (above ++ front).length = min offset source.length ∧ Location.ofOffset source offset =
        { line := 1 + above.count newline
          column := front.length
          lineStart := above.length
          lineText := front ++ firstLine (source.drop offset) } := by
  obtain ⟨above, front, hbefore, habove, hfront⟩ := exists_front (source.take offset)
  have hsource : source = above ++ front ++ source.drop offset := by
    rw [← hbefore, List.take_append_drop]
  have hlength : (above ++ front).length = min offset source.length := by
    rw [← hbefore, List.length_take]
  -- a location depends on the offset only through the text before it
  have hclamped : Location.ofOffset source offset =
      Location.ofOffset source (above ++ front).length := by
    rw [hlength, Location.ofOffset, Location.ofOffset, ← List.take_eq_take_min]
  have hlocation := location_append habove hfront (source.drop offset)
  rw [← hsource] at hlocation
  exact ⟨above, front, hsource, habove, hfront, hlength, hclamped.trans hlocation⟩

end LoxLexer
