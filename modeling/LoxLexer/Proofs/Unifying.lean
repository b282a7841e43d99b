import LoxLexer.Diagnostic.Location
import LoxLexer.Proofs.Lines
import LoxLexer.Source.LineEnding

/-!
# `LoxLexer.Proofs.Unifying` — what unifying line endings does to bytes, lines and characters

Whether a byte is dropped is judged by the byte behind it, so a text can be unified in two parts wherever
the cut does not fall between a carriage return and a newline. Every offset has a place in the unified
text, which is the number of bytes kept in front of it. What is dropped never ends a line and never is
on the last line in front of an offset, so lines and columns stay.

The same can be said of characters: a carriage return and a newline are characters by themselves, and no
broken sequence in front of a dropped one can take the newline that follows (`decode_unifyNewlines`).

## Contents
- `dropBefore` — a list without the members that stand directly before a marker; `NoSeam` and
  `dropBefore_append` — the same in parts. `unifyNewlines` is one case of it, `unifyGlyphs` the other.
- `keptBefore` — the place of an offset in the unified text.
- `location_unifyNewlines` — lines and columns.
- `decode_unifyNewlines`, `spell_unifyGlyphs` — the unified text as characters.
-/

namespace LoxLexer

/-! ## Dropping in front of a marker -/

section DropBefore

variable {α : Type} [DecidableEq α]

/-- The list without every `x` that directly precedes a `marker`. -/
def dropBefore (x marker : α) : List α → List α
  | [] => []
  | a :: rest =>
    if a = x ∧ rest.head? = some marker then dropBefore x marker rest
    else a :: dropBefore x marker rest

/-- No `x` at the end of `left` stands directly before a `marker` at the start of `right`. -/
def NoSeam (x marker : α) (left right : List α) : Prop :=
  ¬ (left.getLast? = some x ∧ right.head? = some marker)

variable {x marker a : α} {rest : List α}

theorem dropBefore_of_drop (h : a = x ∧ rest.head? = some marker) :
    dropBefore x marker (a :: rest) = dropBefore x marker rest := by
  rw [dropBefore, if_pos h]

theorem dropBefore_of_keep (h : ¬ (a = x ∧ rest.head? = some marker)) :
    dropBefore x marker (a :: rest) = a :: dropBefore x marker rest := by
  rw [dropBefore, if_neg h]

theorem dropBefore_cons_of_ne (h : a ≠ x) :
    dropBefore x marker (a :: rest) = a :: dropBefore x marker rest :=
  dropBefore_of_keep fun hdrop => h hdrop.1

theorem dropBefore_singleton (a : α) : dropBefore x marker [a] = [a] :=
  dropBefore_of_keep fun hdrop => Option.some_ne_none marker hdrop.2.symm

theorem dropBefore_append {left right : List α} (h : NoSeam x marker left right) :
    dropBefore x marker (left ++ right) = dropBefore x marker left ++ dropBefore x marker right := by
  induction left with
  | nil => rfl
  | cons a rest ih =>
    cases rest with
    | nil =>
      have ha : ¬ (a = x ∧ right.head? = some marker) := fun ha => h ⟨congrArg some ha.1, ha.2⟩
      rw [List.singleton_append, dropBefore_of_keep ha, dropBefore_singleton, List.singleton_append]
    | cons b rest =>
      have hrest : NoSeam x marker (b :: rest) right := by
        unfold NoSeam at h
        rwa [List.getLast?_cons_cons] at h
      -- what stands behind `a` is the same with and without `right`
      have hhead : (b :: rest ++ right).head? = (b :: rest).head? := rfl
      rw [List.cons_append]
      by_cases ha : a = x ∧ (b :: rest).head? = some marker
      · rw [dropBefore_of_drop ha, dropBefore_of_drop (hhead ▸ ha), ih hrest]
      · rw [dropBefore_of_keep ha, dropBefore_of_keep (hhead ▸ ha), ih hrest, List.cons_append]

theorem dropBefore_sublist (x marker : α) (list : List α) : (dropBefore x marker list).Sublist list := by
  induction list with
  | nil => exact .slnil
  | cons a rest ih =>
    by_cases hdrop : a = x ∧ rest.head? = some marker
    · rw [dropBefore_of_drop hdrop]
      exact ih.cons a
    · rw [dropBefore_of_keep hdrop]
      exact ih.cons_cons a

/-- Without the one or the other there is nothing to drop. -/
theorem dropBefore_of_not_mem {list : List α} (h : x ∉ list ∨ marker ∉ list) :
    dropBefore x marker list = list := by
  induction list with
  | nil => rfl
  | cons a rest ih =>
    rw [List.mem_cons, List.mem_cons, not_or, not_or] at h
    have hkeep : ¬ (a = x ∧ rest.head? = some marker) := by
      rintro ⟨hx, hmarker⟩
      rcases h with h | h
      · exact h.1 hx.symm
      · exact h.2 (List.mem_of_mem_head? hmarker)
    rw [dropBefore_of_keep hkeep, ih (h.imp And.right And.right)]

/-- What is left starts as before, or with the marker. -/
theorem head?_dropBefore (hne : marker ≠ x) {list : List α} :
    ∀ a ∈ (dropBefore x marker list).head?, a = marker ∨ a ∈ list.head? := by
  intro a ha
  cases list with
  | nil => cases ha
  | cons b rest =>
    by_cases hdrop : b = x ∧ rest.head? = some marker
    · obtain ⟨more, rfl⟩ := List.head?_eq_some_iff.mp hdrop.2
      rw [dropBefore_of_drop hdrop, dropBefore_cons_of_ne hne] at ha
      exact Or.inl (Option.some.inj ha).symm
    · rw [dropBefore_of_keep hdrop] at ha
      exact Or.inr ha

theorem count_dropBefore (hne : marker ≠ x) (list : List α) :
    (dropBefore x marker list).count marker = list.count marker := by
  induction list with
  | nil => rfl
  | cons a rest ih =>
    by_cases hdrop : a = x ∧ rest.head? = some marker
    · rw [dropBefore_of_drop hdrop, ih, hdrop.1, List.count_cons_of_ne (Ne.symm hne)]
    · rw [dropBefore_of_keep hdrop, List.count_cons, List.count_cons, ih]

end DropBefore

/-- Unifying line endings drops carriage returns in front of newlines. -/
theorem unifyNewlines_eq_dropBefore (text : Bytes) :
    unifyNewlines text = dropBefore carriageReturn newline text := by
  induction text with
  | nil => rfl
  | cons b rest ih => rw [unifyNewlines, dropBefore, ih]

theorem unifyNewlines_append {left right : Bytes} (h : NoSeam carriageReturn newline left right) :
    unifyNewlines (left ++ right) = unifyNewlines left ++ unifyNewlines right := by
  simp only [unifyNewlines_eq_dropBefore, dropBefore_append h]

theorem unifyNewlines_of_not_mem {text : Bytes} (h : carriageReturn ∉ text) :
    unifyNewlines text = text := by
  rw [unifyNewlines_eq_dropBefore, dropBefore_of_not_mem (Or.inl h)]

/-! ## Offsets -/

/-- How many of the first `n` bytes of a text are kept when its line endings are unified. -/
def keptBefore : Bytes → Nat → Nat
  | [], _ => 0
  | _ :: _, 0 => 0
  | b :: rest, n + 1 =>
    (if b = carriageReturn ∧ rest.head? = some newline then 0 else 1) + keptBefore rest n

/-- The bytes kept in front of an offset and the unified text behind it make up the unified text. -/
theorem keptBefore_add_length (text : Bytes) (n : Nat) :
    keptBefore text n + (unifyNewlines (text.drop n)).length = (unifyNewlines text).length := by
  fun_induction keptBefore text n with
  | case1 n => rw [List.drop_nil, Nat.zero_add]
  | case2 b rest => rw [List.drop_zero, Nat.zero_add]
  | case3 b rest n ih =>
    rw [List.drop_succ_cons, Nat.add_assoc, ih, unifyNewlines]
    split
    · rw [Nat.zero_add]
    · rw [List.length_cons, Nat.add_comm]

theorem keptBefore_zero (text : Bytes) : keptBefore text 0 = 0 := by cases text <;> rfl

/-- All of a text is in front of its end. -/
theorem keptBefore_length (text : Bytes) : keptBefore text text.length = (unifyNewlines text).length := by
  have hadd := keptBefore_add_length text text.length
  rw [List.drop_length] at hadd
  exact hadd

/-! ## Lines and columns -/

/-- The first line ends at the first newline, whatever follows. -/
theorem firstLine_append_of_mem {text : Bytes} (h : newline ∈ text) (more : Bytes) :
    firstLine (text ++ more) = firstLine text := by
  induction text with
  | nil => cases h
  | cons b rest ih =>
    by_cases hb : b = newline
    · simp [firstLine, hb]
    · have hrest : newline ∈ rest := (List.mem_cons.mp h).resolve_left (Ne.symm hb)
      have hih := ih hrest
      unfold firstLine at hih ⊢
      rw [List.cons_append, List.takeWhile_cons, List.takeWhile_cons, hih]

/-- The last line keeps all its bytes: what is dropped has a newline behind it. -/
theorem firstLine_reverse_unifyNewlines (text : Bytes) :
    firstLine (unifyNewlines text).reverse = firstLine text.reverse := by
  rw [unifyNewlines_eq_dropBefore]
  induction text with
  | nil => rfl
  | cons b rest ih =>
    by_cases hline : newline ∈ rest
    · -- the last line starts further behind
      have hkept : newline ∈ dropBefore carriageReturn newline rest := by
        rw [← List.count_pos_iff, count_dropBefore (by decide), List.count_pos_iff]
        exact hline
      have hrest : firstLine (b :: rest).reverse = firstLine rest.reverse := by
        rw [List.reverse_cons]
        exact firstLine_append_of_mem (List.mem_reverse.mpr hline) [b]
      by_cases hdrop : b = carriageReturn ∧ rest.head? = some newline
      · rw [dropBefore_of_drop hdrop, ih, hrest]
      · rw [dropBefore_of_keep hdrop, hrest, ← ih, List.reverse_cons]
        exact firstLine_append_of_mem (List.mem_reverse.mpr hkept) [b]
    · have hkeep : ¬ (b = carriageReturn ∧ rest.head? = some newline) :=
        fun hdrop => hline (List.mem_of_mem_head? hdrop.2)
      rw [dropBefore_of_keep hkeep, dropBefore_of_not_mem (Or.inr hline)]

/-- **Lines and columns stay**: an offset that is not between a carriage return and its newline is on the
    same line and in the same column in the unified text. -/
theorem location_unifyNewlines {left right : Bytes} (h : NoSeam carriageReturn newline left right) :
    let here := Location.ofOffset (left ++ right) left.length
    let there := Location.ofOffset (unifyNewlines (left ++ right)) (keptBefore (left ++ right) left.length)
    there.line = here.line ∧ there.column = here.column := by
  have hkept : keptBefore (left ++ right) left.length = (unifyNewlines left).length := by
    have hadd := keptBefore_add_length (left ++ right) left.length
    rw [List.drop_left, unifyNewlines_append h, List.length_append] at hadd
    exact Nat.add_right_cancel hadd
  have hbefore : (unifyNewlines (left ++ right)).take (keptBefore (left ++ right) left.length) =
      unifyNewlines left := by
    rw [hkept, unifyNewlines_append h, List.take_left]
  have hcount : (unifyNewlines left).count newline = left.count newline := by
    rw [unifyNewlines_eq_dropBefore, count_dropBefore (by decide)]
  intro here there
  constructor
  · show 1 + List.count newline (List.take _ _) = 1 + List.count newline (List.take _ _)
    rw [hbefore, List.take_left, hcount]
  · show (firstLine (List.take _ _).reverse).length = (firstLine (List.take _ _).reverse).length
    rw [hbefore, List.take_left, firstLine_reverse_unifyNewlines]

/-! ## Characters -/

/-- The carriage return, decoded. -/
def returnGlyph : Glyph := ⟨carriageReturn, []⟩

/-- The characters with every carriage return that directly precedes a newline dropped. -/
def unifyGlyphs (glyphs : List Glyph) : List Glyph := dropBefore returnGlyph newlineGlyph glyphs

/-- The bytes taken with a lead byte are no line ending, and they are the same in the unified text. -/
theorem Glyph.trail_unifyNewlines (lead : UInt8) (rest : Bytes) :
    trail lead (unifyNewlines rest) = trail lead rest := by
  -- the text falls in two behind its first run of continuation bytes
  have hsplit : rest.takeWhile isTrailing ++ rest.dropWhile isTrailing = rest :=
    List.takeWhile_append_dropWhile
  have hfresh : StartsAfresh (rest.dropWhile isTrailing) := by
    intro b hb
    have hhead := List.head?_dropWhile_not isTrailing rest
    rw [Option.mem_def.mp hb] at hhead
    exact hhead
  have hfresh' : StartsAfresh (unifyNewlines (rest.dropWhile isTrailing)) := by
    intro b hb
    rw [unifyNewlines_eq_dropBefore] at hb
    rcases head?_dropBefore (by decide) b hb with rfl | hb
    · rfl
    · exact hfresh b hb
  have hreturn : carriageReturn ∉ rest.takeWhile isTrailing := by
    intro hmem
    exact absurd (List.mem_takeWhile_imp hmem) (by decide)
  have hseam : NoSeam carriageReturn newline (rest.takeWhile isTrailing)
       (rest.dropWhile isTrailing) :=
    fun h => hreturn (List.mem_of_getLast? h.1)
  have hunified : unifyNewlines rest =
      rest.takeWhile isTrailing ++ unifyNewlines (rest.dropWhile isTrailing) := by
    rw [← unifyNewlines_of_not_mem hreturn, ← unifyNewlines_append hseam, hsplit]
  rw [hunified, trail_append_of_startsAfresh hfresh', ← trail_append_of_startsAfresh hfresh, hsplit]

/-- The first character of a text is the newline exactly where the first byte is. -/
theorem head?_decode_eq_newline {text : Bytes} :
    (decode text).head? = some newlineGlyph ↔ text.head? = some newline := by
  rw [head?_decode]
  cases text with
  | nil => simp [firstGlyph?]
  | cons b rest =>
    simp only [firstGlyph?, List.head?_cons, Option.some.injEq]
    constructor
    · intro h
      exact congrArg Glyph.lead h
    · rintro rfl
      rw [Glyph.ofLead, Glyph.trail_of_continuations_eq_zero (by decide)]
      rfl

/-- **Unifying a text drops characters**, and no other character changes. -/
theorem decode_unifyNewlines (text : Bytes) : decode (unifyNewlines text) = unifyGlyphs (decode text) := by
  fun_induction decode text with
  | case1 => exact decode_nil
  | case2 lead rest ih =>
    by_cases hdrop : lead = carriageReturn ∧ rest.head? = some newline
    · have htrail : Glyph.trail lead rest = [] := by
        rw [hdrop.1]
        exact Glyph.trail_of_continuations_eq_zero (by decide) rest
      rw [htrail, List.length_nil, List.drop_zero] at ih ⊢
      have hglyph : Glyph.ofLead lead rest = returnGlyph ∧
          (decode rest).head? = some newlineGlyph := by
        rw [Glyph.ofLead, htrail, hdrop.1]
        exact ⟨rfl, head?_decode_eq_newline.mpr hdrop.2⟩
      rw [unifyNewlines, if_pos hdrop, ih, unifyGlyphs, unifyGlyphs, dropBefore_of_drop hglyph]
    · have hglyph : ¬ (Glyph.ofLead lead rest = returnGlyph ∧
          (decode (rest.drop (Glyph.trail lead rest).length)).head? = some newlineGlyph) := by
        rintro ⟨hreturn, hnewline⟩
        have htrail : Glyph.trail lead rest = [] := congrArg Glyph.tail hreturn
        rw [htrail, List.length_nil, List.drop_zero] at hnewline
        exact hdrop ⟨congrArg Glyph.lead hreturn, head?_decode_eq_newline.mp hnewline⟩
      -- what is taken with the lead byte is kept, and the rest is unified behind it
      have hreturn : carriageReturn ∉ Glyph.trail lead rest := by
        intro hmem
        exact absurd (Glyph.isTrailing_of_mem_trail hmem) (by decide)
      have hrest : (unifyNewlines rest).drop (Glyph.trail lead rest).length =
          unifyNewlines (rest.drop (Glyph.trail lead rest).length) := by
        have hseam : NoSeam carriageReturn newline (Glyph.trail lead rest)
            (rest.drop (Glyph.trail lead rest).length) :=
          fun h => hreturn (List.mem_of_getLast? h.1)
        have happend := unifyNewlines_append hseam
        rw [Glyph.trail_append_drop, unifyNewlines_of_not_mem hreturn] at happend
        rw [happend, List.drop_left]
      rw [unifyNewlines, if_neg hdrop, decode_cons, Glyph.ofLead, Glyph.trail_unifyNewlines, hrest, ih,
        unifyGlyphs, unifyGlyphs, dropBefore_of_keep hglyph]
      rfl

theorem spell_unifyGlyphs {glyphs : List Glyph} (h : Decoded glyphs) :
    spell (unifyGlyphs glyphs) = unifyNewlines (spell glyphs) := by
  have hdecode := decode_unifyNewlines (spell glyphs)
  rw [h] at hdecode
  rw [← hdecode, spell_decode]

end LoxLexer
