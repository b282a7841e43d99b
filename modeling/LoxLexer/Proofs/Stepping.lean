import LoxLexer.Proofs.Counting
import LoxLexer.Scanner

/-!
# `LoxLexer.Proofs.Stepping` — cursor moves in terms of the characters ahead

A cursor counts bytes, and each of its moves decodes one character anew. Here every move is described by
the characters that the whole rest of the text decodes to (`Cursor.ahead`): a step takes the first of them,
and a loop takes as many as its condition allows. No statement about a loop mentions how the loop runs.

## Contents
- `Cursor.Reads c taken c'` — reading the characters `taken` leads from `c` to `c'`; `Reads.trans` composes.
- `next_of_ahead_nil`, `exists_next`, `peek_zero`, `exists_accept` … — the single moves.
- `skipWhile_reads`, `exists_readThrough`, `exists_readThroughClose` — the loops. Where a loop runs into the
  end of the text, `AtFailedStep` says that the step back will succeed and change nothing.
-/

namespace LoxLexer.Cursor

variable {c c' c'' : Cursor} {g : Glyph} {taken more rest : List Glyph}

/-! ## What is ahead -/

/-- The characters not read yet. -/
def ahead (c : Cursor) : List Glyph := decode c.remaining

theorem spell_ahead (c : Cursor) : spell c.ahead = c.remaining := spell_decode c.remaining

/-- Nothing is ahead exactly at the end. -/
theorem atEnd_iff : c.atEnd = true ↔ c.ahead = [] := by
  have hremaining : c.ahead = [] ↔ c.remaining = [] := by
    constructor
    · intro h
      rw [← spell_ahead, h]
      rfl
    · intro h
      rw [ahead, h, decode_nil]
  rw [hremaining, remaining, List.drop_eq_nil_iff, atEnd, decide_eq_true_iff]

theorem firstGlyph?_remaining (c : Cursor) : firstGlyph? c.remaining = c.ahead.head? :=
  (head?_decode c.remaining).symm

/-- **Reading `taken` leads from `c` to `c'`**, whatever step `c'` can take back. -/
structure Reads (c : Cursor) (taken : List Glyph) (c' : Cursor) : Prop where
  text : c'.text = c.text
  position : c'.position = c.position + (spell taken).length
  ahead : c.ahead = taken ++ c'.ahead

namespace Reads

theorem refl (c : Cursor) : c.Reads [] c where
  text := rfl
  position := rfl
  ahead := rfl

/-- A failed step reads nothing. -/
theorem failedStep (c : Cursor) : c.Reads [] { c with undo := some 0 } := ⟨rfl, rfl, rfl⟩

theorem trans (h : c.Reads taken c') (h' : c'.Reads more c'') : c.Reads (taken ++ more) c'' where
  text := h'.text.trans h.text
  position := by rw [h'.position, h.position, spell_append, List.length_append, Nat.add_assoc]
  ahead := by rw [h.ahead, h'.ahead, List.append_assoc]

/-- What was ahead behind the characters read is ahead now. -/
theorem ahead_eq (h : c.Reads taken c') (hrest : c.ahead = taken ++ rest) : c'.ahead = rest :=
  List.append_cancel_left (h.ahead.symm.trans hrest)

/-- The bytes read are those between the two cursors. -/
theorem slice_eq (h : c.Reads taken c') :
    (c'.text.drop c.position).take (c'.position - c.position) = spell taken := by
  have hdrop : c'.text.drop c.position = spell taken ++ spell c'.ahead := by
    rw [h.text, ← spell_append, ← h.ahead, spell_ahead]
    rfl
  rw [hdrop, h.position, Nat.add_sub_cancel_left, List.take_left]

/-- No character lies beyond the text. -/
theorem position_le (h : c.Reads taken c') (hc : c.position ≤ c.text.length) :
    c'.position ≤ c.text.length := by
  have hlength := congrArg List.length (spell_ahead c)
  rw [h.ahead, spell_append, List.length_append, remaining, List.length_drop] at hlength
  rw [h.position]
  omega

end Reads

/-! ## Single moves -/

/-- The last step was one at the end of the text, so taking it back changes no position. -/
def AtFailedStep (c : Cursor) : Prop := c.ahead = [] ∧ c.undo = some 0

/-- At the end nothing is read, and the cursor stays. -/
theorem next_of_ahead_nil (h : c.ahead = []) : c.next = (none, { c with undo := some 0 }) := by
  unfold next
  rw [firstGlyph?_remaining, h]
  rfl

theorem exists_next (h : c.ahead = g :: rest) :
    ∃ c', c.next = (some g.code, c') ∧ c.Reads [g] c' := by
  have hfirst : firstGlyph? c.remaining = some g := by
    rw [firstGlyph?_remaining, h]
    rfl
  refine ⟨{ c with position := c.position + g.width, undo := some g.width }, ?_, rfl, ?_, ?_⟩
  · unfold next
    rw [hfirst]
  · rw [spell_cons, spell_nil, List.append_nil, Glyph.length_bytes]
  · -- behind the bytes of `g` the text decodes to the rest
    show c.ahead = [g] ++ decode (c.text.drop (c.position + g.width))
    have hspell := spell_ahead c
    unfold ahead at h ⊢
    cases hremaining : c.remaining with
    | nil =>
      rw [hremaining] at hfirst
      cases hfirst
    | cons lead tail =>
      rw [hremaining] at hfirst
      obtain rfl := Option.some.inj hfirst
      have hdrop : c.text.drop (c.position + (Glyph.ofLead lead tail).width) =
          tail.drop (Glyph.trail lead tail).length := by
        rw [← List.drop_drop, ← remaining, hremaining]
        rfl
      rw [decode_cons, hdrop]
      rfl

theorem peek_zero (c : Cursor) : c.peek 0 = c.ahead.head?.map Glyph.code := by
  rw [peek, ← List.head?_eq_getElem?]
  rfl

/-- An expected character is accepted where it stands. -/
theorem exists_accept (h : c.ahead = g :: rest) {expected : CodePoint} (hg : g.code = expected) :
    ∃ c', c.accept expected = (true, c') ∧ c.Reads [g] c' := by
  obtain ⟨c', hnext, hreads⟩ := exists_next h
  refine ⟨c', ?_, hreads⟩
  have hexpected : (firstGlyph? c.remaining).map Glyph.code = some expected := by
    rw [firstGlyph?_remaining, h, ← hg]
    rfl
  rw [accept, if_pos hexpected, hnext]

/-- Any other character stays where it is. -/
theorem accept_of_ne {expected : CodePoint} (h : ∀ g ∈ c.ahead.head?, g.code ≠ expected) :
    c.accept expected = (false, c) := by
  have hexpected : ¬ (firstGlyph? c.remaining).map Glyph.code = some expected := by
    rw [firstGlyph?_remaining]
    intro hmap
    obtain ⟨g, hg, hcode⟩ := Option.map_eq_some_iff.mp hmap
    exact h g hg hcode
  rw [accept, if_neg hexpected]

/-- What accepting says is whether the expected character was there. -/
theorem accept_fst_iff {expected : CodePoint} :
    (c.accept expected).1 = true ↔ ∃ g ∈ c.ahead.head?, g.code = expected := by
  rw [accept, firstGlyph?_remaining]
  split
  · rename_i hexpected
    exact iff_of_true rfl (Option.map_eq_some_iff.mp hexpected)
  · rename_i hexpected
    exact iff_of_false Bool.false_ne_true fun h => hexpected (Option.map_eq_some_iff.mpr h)

/-- A failed step at the end can be taken back, and nothing has moved then. -/
theorem AtFailedStep.exists_stepBack (h : c'.AtFailedStep) (hreads : c.Reads taken c') :
    ∃ c'', c'.stepBack = (true, c'') ∧ c.Reads taken c'' := by
  refine ⟨{ c' with position := c'.position - 0, undo := none }, ?_, ?_⟩
  · unfold stepBack
    rw [h.2]
  · exact ⟨hreads.text, hreads.position, hreads.ahead⟩

/-! ## Loops -/

section SkipWhile

variable {p : CodePoint → Bool}

theorem skipWhile_of_ahead_nil (h : c.ahead = []) : c.skipWhile p = c := by
  have hpeek : c.peek 0 = none := by
    rw [peek_zero, h]
    rfl
  rw [skipWhile]
  split
  · rfl
  · rename_i hsome
    rw [hpeek] at hsome
    cases hsome

theorem skipWhile_of_ahead_cons (h : c.ahead = g :: rest) :
    c.skipWhile p = if p g.code then c.next.2.skipWhile p else c := by
  have hpeek : c.peek 0 = some g.code := by
    rw [peek_zero, h]
    rfl
  rw [skipWhile]
  split
  · rename_i hnone
    rw [hpeek] at hnone
    cases hnone
  · rename_i code hsome
    rw [hpeek] at hsome
    obtain rfl := Option.some.inj hsome
    rfl

/-- Skipping stops at the first character without the property. -/
theorem skipWhile_reads {body follow : List Glyph} (hahead : c.ahead = body ++ follow)
    (hbody : ∀ x ∈ body, p x.code = true) (hfollow : ∀ x ∈ follow.head?, p x.code = false) :
    c.Reads body (c.skipWhile p) := by
  induction body generalizing c with
  | nil =>
    rw [List.nil_append] at hahead
    cases follow with
    | nil =>
      rw [skipWhile_of_ahead_nil hahead]
      exact .refl c
    | cons g rest =>
      rw [skipWhile_of_ahead_cons hahead, hfollow g rfl, if_neg Bool.false_ne_true]
      exact .refl c
  | cons g body ih =>
    obtain ⟨hg, hbody⟩ := List.forall_mem_cons.mp hbody
    obtain ⟨c', hnext, hreads⟩ := exists_next hahead
    rw [skipWhile_of_ahead_cons hahead, if_pos hg, hnext]
    exact hreads.trans (ih (hreads.ahead_eq hahead) hbody)

end SkipWhile

section ReadThrough

variable {stop : Char}

theorem readThrough_of_next_none (h : c.next = (none, c')) : c.readThrough stop = (false, c') := by
  rw [readThrough]
  split
  · rename_i hnext
    rw [h] at hnext
    cases hnext
    rfl
  · rename_i hnext
    rw [h] at hnext
    cases hnext

theorem readThrough_of_next_some {code : CodePoint} (h : c.next = (some code, c')) :
    c.readThrough stop = if code = stop.toNat then (true, c') else c'.readThrough stop := by
  rw [readThrough]
  split
  · rename_i hnext
    rw [h] at hnext
    cases hnext
  · rename_i hnext
    rw [h] at hnext
    cases hnext
    rfl

/-- Any other character is read, and the loop goes on behind it. -/
theorem readThrough_of_other (h : c.next = (some g.code, c')) (hg : g.is stop = false) :
    c.readThrough stop = c'.readThrough stop := by
  rw [readThrough_of_next_some h, if_neg]
  intro hcode
  rw [Glyph.is_iff.mpr hcode] at hg
  cases hg

/-- The loop ends behind the first `stop`. -/
theorem exists_readThrough {body follow : List Glyph} {close : Glyph}
    (hahead : c.ahead = body ++ close :: follow) (hbody : ∀ x ∈ body, x.is stop = false)
    (hclose : close.is stop = true) :
    ∃ c', c.readThrough stop = (true, c') ∧ c.Reads (body ++ [close]) c' := by
  induction body generalizing c with
  | nil =>
    obtain ⟨c', hnext, hreads⟩ := exists_next hahead
    refine ⟨c', ?_, hreads⟩
    rw [readThrough_of_next_some hnext, if_pos (Glyph.is_iff.mp hclose)]
  | cons g body ih =>
    obtain ⟨hg, hbody⟩ := List.forall_mem_cons.mp hbody
    obtain ⟨c₁, hnext, hfirst⟩ := exists_next hahead
    obtain ⟨c', hloop, hreads⟩ := ih (hfirst.ahead_eq hahead) hbody
    refine ⟨c', ?_, hfirst.trans hreads⟩
    rw [readThrough_of_other hnext hg, hloop]

/-- Without a `stop` the loop runs to the end of the text. -/
theorem exists_readThrough_end (h : ∀ x ∈ c.ahead, x.is stop = false) :
    ∃ c', c.readThrough stop = (false, c') ∧ c.Reads c.ahead c' ∧ c'.AtFailedStep := by
  generalize hahead : c.ahead = body at h ⊢
  induction body generalizing c with
  | nil => exact ⟨_, readThrough_of_next_none (next_of_ahead_nil hahead), .failedStep c, hahead, rfl⟩
  | cons g body ih =>
    obtain ⟨hg, hbody⟩ := List.forall_mem_cons.mp h
    obtain ⟨c₁, hnext, hfirst⟩ := exists_next hahead
    obtain ⟨c', hloop, hreads, hend⟩ := ih (hfirst.ahead_eq hahead) hbody
    refine ⟨c', ?_, hfirst.trans hreads, hend⟩
    rw [readThrough_of_other hnext hg, hloop]

end ReadThrough

section ReadThroughClose

theorem readThroughClose_of_next_none (h : c.next = (none, c')) : c.readThroughClose = (false, c') := by
  rw [readThroughClose]
  split
  · rename_i hnext
    rw [h] at hnext
    cases hnext
    rfl
  · rename_i hnext
    rw [h] at hnext
    cases hnext

theorem readThroughClose_of_next_some {code : CodePoint} (h : c.next = (some code, c')) :
    c.readThroughClose =
      if code = '*'.toNat ∧ (c'.accept '/'.toNat).1 then (true, (c'.accept '/'.toNat).2)
      else c'.readThroughClose := by
  rw [readThroughClose]
  split
  · rename_i hnext
    rw [h] at hnext
    cases hnext
  · rename_i hnext
    rw [h] at hnext
    cases hnext
    rfl

/-- A character that no `*/` starts with is read, and the loop goes on behind it. -/
theorem readThroughClose_of_open (h : c.next = (some g.code, c'))
    (hopen : ∀ y ∈ c'.ahead.head?, (g.is '*' && y.is '/') = false) :
    c.readThroughClose = c'.readThroughClose := by
  rw [readThroughClose_of_next_some h, if_neg]
  rintro ⟨hstar, hslash⟩
  obtain ⟨y, hy, hcode⟩ := accept_fst_iff.mp hslash
  have hclosed := hopen y hy
  rw [Glyph.is_iff.mpr hstar, Glyph.is_iff.mpr hcode] at hclosed
  cases hclosed

/-- The loop ends behind the first `*/`. -/
theorem exists_readThroughClose {body follow : List Glyph} {star slash : Glyph}
    (hahead : c.ahead = body ++ star :: slash :: follow) (hbody : NoClose (body ++ [star]))
    (hstar : star.is '*' = true) (hslash : slash.is '/' = true) :
    ∃ c', c.readThroughClose = (true, c') ∧ c.Reads (body ++ [star, slash]) c' := by
  induction body generalizing c with
  | nil =>
    obtain ⟨c₁, hnext, hfirst⟩ := exists_next hahead
    obtain ⟨c', haccept, hreads⟩ := exists_accept (hfirst.ahead_eq hahead) (Glyph.is_iff.mp hslash)
    refine ⟨c', ?_, hfirst.trans hreads⟩
    rw [readThroughClose_of_next_some hnext, haccept, if_pos ⟨Glyph.is_iff.mp hstar, rfl⟩]
  | cons g body ih =>
    obtain ⟨hopen, hbody⟩ := List.isChain_cons.mp hbody
    obtain ⟨c₁, hnext, hfirst⟩ := exists_next hahead
    have hrest := hfirst.ahead_eq hahead
    obtain ⟨c', hloop, hreads⟩ := ih hrest hbody
    refine ⟨c', ?_, hfirst.trans hreads⟩
    have hhead : c₁.ahead.head? = (body ++ [star]).head? := by
      rw [hrest]
      cases body <;> rfl
    rw [readThroughClose_of_open hnext (hhead ▸ hopen), hloop]

/-- Without a `*/` the loop runs to the end of the text. -/
theorem exists_readThroughClose_end (h : NoClose c.ahead) :
    ∃ c', c.readThroughClose = (false, c') ∧ c.Reads c.ahead c' ∧ c'.AtFailedStep := by
  generalize hahead : c.ahead = body at h ⊢
  induction body generalizing c with
  | nil => exact ⟨_, readThroughClose_of_next_none (next_of_ahead_nil hahead), .failedStep c, hahead, rfl⟩
  | cons g body ih =>
    obtain ⟨hopen, hbody⟩ := List.isChain_cons.mp h
    obtain ⟨c₁, hnext, hfirst⟩ := exists_next hahead
    have hrest := hfirst.ahead_eq hahead
    obtain ⟨c', hloop, hreads, hend⟩ := ih hrest hbody
    refine ⟨c', ?_, hfirst.trans hreads, hend⟩
    rw [readThroughClose_of_open hnext (hrest ▸ hopen), hloop]

end ReadThroughClose

end LoxLexer.Cursor
