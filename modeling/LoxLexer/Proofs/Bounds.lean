import LoxLexer.Proofs.Stepping

/-!
# `LoxLexer.Proofs.Bounds` — cursor moves that check what they compute

Differences of numbers without a sign are cut off at zero, and a slice from beyond the end of a text is empty.
Both are convenient, and both could hide a mistake: where the cursor takes a step back, the step must not have
been wider than what was read. In this module every move is written down again with such operations
**checked**. A checked operation has no result where the plain one would be cut off or would look beyond the
text, and a move without a result has stopped there. Every checked move does have a result, the one of the
plain move, as long as the cursor stands inside its text and no step back leads out of it.

## Contents
- `difference?`, `slice?`, `glyphAt?` — the checked operations.
- `Cursor.peek?`, `next?`, `stepBack?`, `accept?` and the loops on them, each with an equation that says it
  has the result of the plain one.
- `Cursor.Within` — where a cursor may stand. `within_next`, `within_stepBack` … say that moves keep it.
- `Cursor.performAll?_eq` — sequences of moves.
-/

namespace LoxLexer

/-! ## Checked operations -/

/-- The difference of two numbers, if it is one. -/
def difference? (a b : Nat) : Option Nat := if b ≤ a then some (a - b) else none

/-- Up to `count` bytes of a text from an offset on, if the offset is not beyond its end. -/
def slice? (text : Bytes) (start count : Nat) : Option Bytes :=
  if start ≤ text.length then some ((text.drop start).take count) else none

/-- The character that starts at an offset, if the offset is inside the text. -/
def glyphAt? (text : Bytes) (offset : Nat) : Option Glyph :=
  if offset < text.length then firstGlyph? (text.drop offset) else none

theorem difference?_eq {a b : Nat} (h : b ≤ a) : difference? a b = some (a - b) := if_pos h

theorem difference?_add (a b : Nat) : difference? (a + b) a = some b := by
  rw [difference?_eq (Nat.le_add_right a b), Nat.add_sub_cancel_left]

theorem slice?_eq {text : Bytes} {start : Nat} (h : start ≤ text.length) (count : Nat) :
    slice? text start count = some ((text.drop start).take count) := if_pos h

namespace Cursor

variable {c c' : Cursor}

/-! ## Checked moves -/

/-- The character `ahead` places behind an offset. The search ends early at the end of the text. -/
def peekFrom? (text : Bytes) (offset : Nat) : Nat → Option (Option CodePoint)
  | 0 => if text.length ≤ offset then some none else (glyphAt? text offset).map fun g => some g.code
  | ahead + 1 =>
    if text.length ≤ offset then some none
    else (glyphAt? text offset).bind fun g => peekFrom? text (offset + g.width) ahead

def peek? (c : Cursor) (ahead : Nat) : Option (Option CodePoint) := peekFrom? c.text c.position ahead

def next? (c : Cursor) : Option (Option CodePoint × Cursor) :=
  if c.atEnd then some (none, { c with undo := some 0 })
  else do
    let g ← glyphAt? c.text c.position
    return (some g.code, { c with position := c.position + g.width, undo := some g.width })

def stepBack? (c : Cursor) : Option (Bool × Cursor) :=
  match c.undo with
  | none => some (false, c)
  | some width => do
    let position ← difference? c.position width
    return (true, { c with position, undo := none })

def accept? (c : Cursor) (expected : CodePoint) : Option (Bool × Cursor) := do
  if (← c.peek? 0) = some expected then
    let (_, c') ← c.next?
    return (true, c')
  else return (false, c)

def perform? (c : Cursor) : Move → Option (Answer × Cursor)
  | .peek ahead => do return (.character (← c.peek? ahead), c)
  | .next => do
    let (code, c') ← c.next?
    return (.character code, c')
  | .stepBack => do
    let (done, c') ← c.stepBack?
    return (.success done, c')
  | .accept expected => do
    let (done, c') ← c.accept? expected
    return (.success done, c')
  | .rewind => some (.nothing, c.rewind)

def performAll? (c : Cursor) : List Move → Option (List (Answer × Cursor))
  | [] => some []
  | move :: moves => do
    let answer ← c.perform? move
    let answers ← performAll? answer.2 moves
    return answer :: answers

/-! ## Looking and stepping

These moves check for the end of the text themselves, so they are never stopped, wherever the cursor is. -/

/-- Inside the text there is a character, and the text decodes to it and what is behind it. -/
theorem exists_glyphAt? {text : Bytes} {offset : Nat} (h : offset < text.length) :
    ∃ g, glyphAt? text offset = some g ∧
      decode (text.drop offset) = g :: decode (text.drop (offset + g.width)) := by
  obtain ⟨lead, rest, hdrop⟩ := List.exists_cons_of_length_pos (l := text.drop offset)
    (by rw [List.length_drop]; omega)
  have hbehind : text.drop (offset + (Glyph.ofLead lead rest).width) =
      rest.drop (Glyph.trail lead rest).length := by
    rw [← List.drop_drop, hdrop]
    rfl
  refine ⟨Glyph.ofLead lead rest, ?_, ?_⟩
  · rw [glyphAt?, if_pos h, hdrop]
    rfl
  · rw [hbehind, hdrop, decode_cons]

theorem peekFrom?_eq (text : Bytes) (offset ahead : Nat) :
    peekFrom? text offset ahead = some ((decode (text.drop offset))[ahead]?.map Glyph.code) := by
  induction ahead generalizing offset with
  | zero =>
    rw [peekFrom?]
    split
    · rename_i hend
      rw [List.drop_eq_nil_of_le hend, decode_nil]
      rfl
    · rename_i hmore
      obtain ⟨g, hg, hdecode⟩ := exists_glyphAt? (Nat.lt_of_not_le hmore)
      rw [hg, hdecode]
      rfl
  | succ ahead ih =>
    rw [peekFrom?]
    split
    · rename_i hend
      rw [List.drop_eq_nil_of_le hend, decode_nil]
      rfl
    · rename_i hmore
      obtain ⟨g, hg, hdecode⟩ := exists_glyphAt? (Nat.lt_of_not_le hmore)
      rw [hg, hdecode, Option.bind_some, ih, List.getElem?_cons_succ]

theorem peek?_eq (c : Cursor) (ahead : Nat) : c.peek? ahead = some (c.peek ahead) :=
  peekFrom?_eq c.text c.position ahead

theorem next?_eq (c : Cursor) : c.next? = some c.next := by
  rw [next?]
  split
  · rename_i hend
    rw [next_of_ahead_nil (atEnd_iff.mp hend)]
  · rename_i hmore
    rw [atEnd, decide_eq_true_iff] at hmore
    obtain ⟨g, hg, hdecode⟩ := exists_glyphAt? (Nat.lt_of_not_le hmore)
    have hfirst : firstGlyph? c.remaining = some g := by
      rw [← head?_decode, remaining, hdecode, List.head?_cons]
    rw [hg, next, hfirst]
    rfl

theorem accept?_eq (c : Cursor) (expected : CodePoint) : c.accept? expected = some (c.accept expected) := by
  have hpeek : c.peek 0 = (firstGlyph? c.remaining).map Glyph.code := by
    rw [peek_zero, firstGlyph?_remaining]
  rw [accept?, peek?_eq, next?_eq, accept, hpeek]
  show (if _ then _ else _) = _
  split <;> rfl

/-! ## Where a cursor may stand -/

/-- **The cursor stands between `first` and the end of its text**, and so it does after a step back. -/
structure Within (first : Nat) (c : Cursor) : Prop where
  le_position : first ≤ c.position
  position_le : c.position ≤ c.text.length
  undo_le : ∀ width ∈ c.undo, first + width ≤ c.position

variable {first : Nat}

theorem within_ofText (text : Bytes) : (ofText text).Within 0 where
  le_position := Nat.le_refl 0
  position_le := Nat.zero_le _
  undo_le _ h := by cases h

/-- A step back to before `first` is excluded, so it is one inside the text. -/
theorem stepBack?_eq (h : c.Within first) : c.stepBack? = some c.stepBack := by
  cases hundo : c.undo with
  | none => simp only [stepBack?, stepBack, hundo]
  | some width =>
    have hwidth := h.undo_le width hundo
    simp only [stepBack?, stepBack, hundo, difference?_eq (show width ≤ c.position by omega)]
    rfl

/-- A step back that would lead out of the text is stopped. -/
example : stepBack? ⟨[], 0, some 1⟩ = none := by decide

theorem Within.stepBack (h : c.Within first) : c.stepBack.2.Within first := by
  have hposition := h.position_le
  cases hundo : c.undo with
  | none =>
    simp only [Cursor.stepBack, hundo]
    exact h
  | some width =>
    have hwidth := h.undo_le width hundo
    simp only [Cursor.stepBack, hundo]
    exact ⟨by simp only; omega, by simp only; omega, by simp⟩

/-- **A step leads further**, so the step back leads no further than to where it started, and no step leads
    beyond the text. -/
theorem within_next (hfirst : first ≤ c.position) (hposition : c.position ≤ c.text.length) :
    c.next.2.Within first := by
  cases hahead : c.ahead with
  | nil =>
    rw [next_of_ahead_nil hahead]
    exact ⟨hfirst, hposition, by simpa using hfirst⟩
  | cons g rest =>
    have hfirstGlyph : firstGlyph? c.remaining = some g := by
      rw [firstGlyph?_remaining, hahead]
      rfl
    have hnext : c.next =
        (some g.code, { c with position := c.position + g.width, undo := some g.width }) := by
      rw [next, hfirstGlyph]
    obtain ⟨c', hnext', hreads⟩ := exists_next hahead
    have hend := hreads.position_le hposition
    rw [hnext, Prod.mk.injEq] at hnext'
    rw [hnext]
    rw [← hnext'.2] at hend
    exact ⟨Nat.le_add_right_of_le hfirst, hend, by simpa using hfirst⟩

theorem Within.next (h : c.Within first) : c.next.2.Within first := within_next h.le_position h.position_le

theorem Within.of_next {code? : Option CodePoint} (h : c.Within first) (hnext : c.next = (code?, c')) :
    c'.Within first := by
  have hcursor : c.next.2 = c' := congrArg Prod.snd hnext
  exact hcursor ▸ h.next

theorem Within.accept (h : c.Within first) (expected : CodePoint) : (c.accept expected).2.Within first := by
  rw [Cursor.accept]
  split
  · exact h.next
  · exact h

theorem lt_position_next {code : CodePoint} (h : c.next = (some code, c')) : c.position < c'.position := by
  have hshorter := length_remaining_next h
  have htext : c'.text = c.text := by
    rw [← show c.next.2 = c' from congrArg Prod.snd h, Cursor.next]
    split <;> rfl
  simp only [remaining, List.length_drop, htext] at hshorter
  omega

/-! ## Loops

Each loop is the one without the question mark, with checked moves in it. Its moves are never stopped, so each
turn reads a character, and the loop comes to its end for the same reason. -/

theorem length_remaining_next? {code : CodePoint} (h : c.next? = some (some code, c')) :
    c'.remaining.length < c.remaining.length := by
  rw [next?_eq, Option.some_inj] at h
  exact length_remaining_next h

def skipWhile? (p : CodePoint → Bool) (c : Cursor) : Option Cursor :=
  match _hpeek : c.peek? 0 with
  | none => none
  | some none => some c
  | some (some code) =>
    if p code then
      match _hnext : c.next? with
      | none => none
      | some (_, c') => skipWhile? p c'
    else some c
termination_by c.remaining.length
decreasing_by
  -- what can be seen is what is read
  rw [peek?_eq, Option.some_inj] at _hpeek
  rw [next?_eq, exists_next_of_peek _hpeek, Option.some_inj, Prod.mk.injEq] at _hnext
  exact _hnext.2 ▸ length_remaining_next (exists_next_of_peek _hpeek)

def readThrough? (stop : Char) (c : Cursor) : Option (Bool × Cursor) :=
  match _h : c.next? with
  | none => none
  | some (none, c') => some (false, c')
  | some (some code, c') => if code = stop.toNat then some (true, c') else readThrough? stop c'
termination_by c.remaining.length
decreasing_by exact length_remaining_next? ‹_›

def readThroughClose? (c : Cursor) : Option (Bool × Cursor) :=
  match _h : c.next? with
  | none => none
  | some (none, c') => some (false, c')
  | some (some code, c') =>
    if code = '*'.toNat then
      match c'.accept? '/'.toNat with
      | none => none
      | some (true, c'') => some (true, c'')
      | some (false, _) => readThroughClose? c'
    else readThroughClose? c'
termination_by c.remaining.length
decreasing_by all_goals exact length_remaining_next? ‹_›

theorem skipWhile?_of_peek_none (p : CodePoint → Bool) (h : c.peek 0 = none) :
    c.skipWhile? p = some c := by
  have hpeek : c.peek? 0 = some none := by rw [peek?_eq, h]
  rw [skipWhile?]
  split <;> rename_i hresult <;> rw [hpeek] at hresult <;> cases hresult

theorem skipWhile?_of_peek_some (p : CodePoint → Bool) {code : CodePoint} (h : c.peek 0 = some code) :
    c.skipWhile? p = if p code then c.next.2.skipWhile? p else some c := by
  have hpeek : c.peek? 0 = some (some code) := by rw [peek?_eq, h]
  have hnext : c.next? = some (some code, c.next.2) := by
    conv_lhs => rw [next?_eq, exists_next_of_peek h]
  rw [skipWhile?]
  split <;> rename_i hresult <;> rw [hpeek] at hresult <;> cases hresult
  by_cases hcode : p code = true
  · rw [if_pos hcode, if_pos hcode]
    split <;> rename_i hstep <;> rw [hnext] at hstep <;> cases hstep
    rfl
  · rw [if_neg hcode, if_neg hcode]

theorem skipWhile?_eq (p : CodePoint → Bool) (c : Cursor) : c.skipWhile? p = some (c.skipWhile p) := by
  fun_induction skipWhile p c with
  | case1 c hpeek => exact skipWhile?_of_peek_none p hpeek
  | case2 c code hpeek hcode ih => rw [skipWhile?_of_peek_some p hpeek, if_pos hcode, ih]
  | case3 c code hpeek hcode => rw [skipWhile?_of_peek_some p hpeek, if_neg hcode]

theorem readThrough?_of_next_none (stop : Char) (h : c.next = (none, c')) :
    c.readThrough? stop = some (false, c') := by
  have hnext : c.next? = some (none, c') := by rw [next?_eq, h]
  rw [readThrough?]
  split <;> rename_i hresult <;> rw [hnext] at hresult <;> cases hresult
  rfl

theorem readThrough?_of_next_some (stop : Char) {code : CodePoint} (h : c.next = (some code, c')) :
    c.readThrough? stop = if code = stop.toNat then some (true, c') else c'.readThrough? stop := by
  have hnext : c.next? = some (some code, c') := by rw [next?_eq, h]
  rw [readThrough?]
  split <;> rename_i hresult <;> rw [hnext] at hresult <;> cases hresult
  rfl

theorem readThrough?_eq (stop : Char) (c : Cursor) : c.readThrough? stop = some (c.readThrough stop) := by
  fun_induction readThrough stop c with
  | case1 c c' hnext => exact readThrough?_of_next_none stop hnext
  | case2 c c' hnext => rw [readThrough?_of_next_some stop hnext, if_pos rfl]
  | case3 c code c' hnext hcode ih => rw [readThrough?_of_next_some stop hnext, if_neg hcode, ih]

theorem readThroughClose?_of_next_none (h : c.next = (none, c')) :
    c.readThroughClose? = some (false, c') := by
  have hnext : c.next? = some (none, c') := by rw [next?_eq, h]
  rw [readThroughClose?]
  split <;> rename_i hresult <;> rw [hnext] at hresult <;> cases hresult
  rfl

theorem readThroughClose?_of_next_some {code : CodePoint} (h : c.next = (some code, c')) :
    c.readThroughClose? =
      if code = '*'.toNat then
        match c'.accept '/'.toNat with
        | (true, c'') => some (true, c'')
        | (false, _) => c'.readThroughClose?
      else c'.readThroughClose? := by
  have hnext : c.next? = some (some code, c') := by rw [next?_eq, h]
  rw [readThroughClose?]
  split <;> rename_i hresult <;> rw [hnext] at hresult <;> cases hresult
  by_cases hcode : code = '*'.toNat
  · rw [if_pos hcode, if_pos hcode, accept?_eq]
    rcases c'.accept '/'.toNat with ⟨_ | _, _⟩ <;> rfl
  · rw [if_neg hcode, if_neg hcode]

theorem readThroughClose?_eq (c : Cursor) : c.readThroughClose? = some c.readThroughClose := by
  fun_induction readThroughClose c with
  | case1 c c' hnext => exact readThroughClose?_of_next_none hnext
  | case2 c code c' hnext hclose =>
    obtain ⟨hcode, hslash⟩ := hclose
    have haccept : c'.accept '/'.toNat = (true, (c'.accept '/'.toNat).2) := Prod.ext hslash rfl
    rw [readThroughClose?_of_next_some hnext, if_pos hcode, haccept]
  | case3 c code c' hnext hclose ih =>
    rw [readThroughClose?_of_next_some hnext]
    by_cases hcode : code = '*'.toNat
    · have haccept : c'.accept '/'.toNat = (false, c') :=
        accept_of_ne fun g hg hslash => hclose ⟨hcode, accept_fst_iff.mpr ⟨g, hg, hslash⟩⟩
      rw [if_pos hcode, haccept, ← ih]
    · rw [if_neg hcode, ← ih]

theorem Within.skipWhile (h : c.Within first) (p : CodePoint → Bool) : (c.skipWhile p).Within first := by
  fun_induction Cursor.skipWhile p c with
  | case1 => exact h
  | case2 c code hpeek hcode ih => exact ih h.next
  | case3 => exact h

theorem Within.readThrough (h : c.Within first) (stop : Char) : (c.readThrough stop).2.Within first := by
  fun_induction Cursor.readThrough stop c with
  | case1 c c' hnext => exact h.of_next hnext
  | case2 c c' hnext => exact h.of_next hnext
  | case3 c code c' hnext hcode ih => exact ih (h.of_next hnext)

theorem Within.readThroughClose (h : c.Within first) : c.readThroughClose.2.Within first := by
  fun_induction Cursor.readThroughClose c with
  | case1 c c' hnext => exact h.of_next hnext
  | case2 c code c' hnext hclose => exact (h.of_next hnext).accept _
  | case3 c code c' hnext hclose ih => exact ih (h.of_next hnext)

/-- Where a `stop` was found, at least that was read. -/
theorem lt_position_readThrough {stop : Char} (h : c.readThrough stop = (true, c')) :
    c.position < c'.position := by
  fun_induction Cursor.readThrough stop c with
  | case1 => cases h
  | case2 c c'' hnext =>
    cases h
    exact lt_position_next hnext
  | case3 c code c'' hnext hcode ih => exact (lt_position_next hnext).trans (ih h)

/-! ## Sequences of moves -/

theorem perform?_eq (h : c.Within first) (move : Move) : c.perform? move = some (c.perform move) := by
  cases move <;> simp [perform?, perform, peek?_eq, next?_eq, stepBack?_eq h, accept?_eq]

theorem Within.perform (h : c.Within 0) (move : Move) : (c.perform move).2.Within 0 := by
  cases move with
  | peek ahead => exact h
  | next => exact h.next
  | stepBack => exact h.stepBack
  | accept expected => exact h.accept expected
  | rewind => exact within_ofText c.text

/-- **No move is stopped**, in whatever order they come. -/
theorem performAll?_eq (h : c.Within 0) (moves : List Move) :
    c.performAll? moves = some (c.performAll moves) := by
  induction moves generalizing c with
  | nil => rfl
  | cons move moves ih =>
    rw [performAll?, perform?_eq h, performAll]
    simp only [Option.bind_eq_bind, Option.bind_some, ih (h.perform move)]
    rfl

end Cursor

end LoxLexer
