import LoxLexer.Proofs.Scalars

/-!
# `LoxLexer.Proofs.LongForms` — which bytes are read as which character

Reading goes by the shape of bytes. So the bytes read in one step are not always the UTF-8 form of the
character returned, but they are always **a** form of it: its binary digits, six in each continuation byte
and the others in the lead byte. With its length such a form is determined, and the UTF-8 form is one of
them, the shortest. What is read besides are longer forms, and forms of numbers that are no scalar values.

## Contents
- `sextets`, `longForm` — the form of so many bytes of any number that they have room for.
  `code_lt_and_bytes_eq` says that every sequence of the right shape is one, `utf8EncodeChar_eq_longForm`
  that UTF-8 is.
- `ReadAs` — bytes and the character that one step makes of them; `ReadAs.eq_of_length_eq` says that the
  character and the length determine the bytes, `ReadAs.isFaithful_iff` when they are UTF-8.
- `Cursor.Takes` — what a step takes and returns; `next_readAs` — every step of every cursor.
- `ReadsFaithfully`, `not_readsFaithfully_longSlash` — that bytes other than UTF-8 are always replaced, and
  a text where they are not.
-/

namespace LoxLexer

/-! ## Forms of a number -/

/-- The last groups of six binary digits of a number, so many of them, each in a continuation byte. -/
def sextets : Nat → CodePoint → Bytes
  | 0, _ => []
  | count + 1, code => sextets count (code / 64) ++ [UInt8.ofNat (code % 64 + 0x80)]

/-- What marks the lead byte of a sequence with so many continuation bytes. -/
def leadMark : Nat → Nat
  | 0 => 0
  | 1 => 0xC0
  | 2 => 0xE0
  | _ => 0xF0

/-- How many values the lead byte can hold beside its mark. -/
def leadRoom : Nat → Nat
  | 0 => 0x80
  | 1 => 0x20
  | 2 => 0x10
  | _ => 0x08

/-- The form of a number with so many continuation bytes, whether or not it needs them. -/
def longForm (count : Nat) (code : CodePoint) : Bytes :=
  UInt8.ofNat (code / 64 ^ count + leadMark count) :: sextets count code

theorem length_sextets (count : Nat) (code : CodePoint) : (sextets count code).length = count := by
  induction count generalizing code with
  | zero => rfl
  | succ count ih => rw [sextets, List.length_append, ih, List.length_singleton]

theorem length_longForm (count : Nat) (code : CodePoint) : (longForm count code).length = count + 1 := by
  rw [longForm, List.length_cons, length_sextets]

/-! ## Sequences of the right shape -/

/-- A continuation byte is its six binary digits behind the mark. -/
theorem ofNat_of_isTrailing {b : UInt8} (h : isTrailing b = true) :
    UInt8.ofNat (b.toNat % 64 + 0x80) = b := by
  simp only [isTrailing, Bool.and_eq_true, decide_eq_true_eq, UInt8.le_iff_toNat_le,
    UInt8.lt_iff_toNat_lt, UInt8.reduceToNat] at h
  apply UInt8.toNat_inj.mp
  rw [UInt8.toNat_ofNat']
  omega

/-- The number that continuation bytes add their digits to. -/
def gather (value : Nat) (tail : List UInt8) : Nat :=
  tail.foldl (fun value b => value * 64 + b.toNat % 64) value

theorem gather_concat (value : Nat) (tail : List UInt8) (b : UInt8) :
    gather value (tail ++ [b]) = gather value tail * 64 + b.toNat % 64 := by
  rw [gather, List.foldl_append]
  rfl

/-- What was there before the continuation bytes stands in front of their digits. -/
theorem gather_div (value : Nat) (tail : List UInt8) : gather value tail / 64 ^ tail.length = value := by
  induction tail using List.reverseRecOn with
  | nil => exact Nat.div_one value
  | append_singleton tail b ih =>
    have hlast : gather value (tail ++ [b]) / 64 = gather value tail := by
      rw [gather_concat]
      omega
    rw [List.length_append, List.length_singleton, Nat.pow_succ', ← Nat.div_div_eq_div_mul, hlast, ih]

/-- The digits of continuation bytes are these bytes again. -/
theorem sextets_gather (value : Nat) {tail : List UInt8} (h : ∀ b ∈ tail, isTrailing b = true) :
    sextets tail.length (gather value tail) = tail := by
  induction tail using List.reverseRecOn with
  | nil => rfl
  | append_singleton tail b ih =>
    obtain ⟨htail, hb⟩ := List.forall_mem_append.mp h
    have hfront : gather value (tail ++ [b]) / 64 = gather value tail := by
      rw [gather_concat]
      omega
    have hlast : gather value (tail ++ [b]) % 64 = b.toNat % 64 := by
      rw [gather_concat]
      omega
    rw [List.length_append, List.length_singleton, sextets, hfront, hlast, ih htail,
      ofNat_of_isTrailing (hb b List.mem_cons_self)]

/-- A lead byte holds its mark, and what it has room for. -/
theorem lead_eq {lead : UInt8} {count : Nat} (h : continuations lead = count + 1) :
    count + 1 ≤ 3 ∧ lead.toNat % (1 <<< (6 - (count + 1))) < leadRoom (count + 1) ∧
      lead.toNat % (1 <<< (6 - (count + 1))) + leadMark (count + 1) = lead.toNat := by
  simp only [continuations, UInt8.lt_iff_toNat_lt, UInt8.reduceToNat] at h
  have hcount : count = 0 ∨ count = 1 ∨ count = 2 := by split_ifs at h <;> omega
  rcases hcount with rfl | rfl | rfl
  all_goals
    simp only [leadRoom, leadMark, Nat.reduceAdd, Nat.reduceSub, Nat.reduceShiftLeft]
    split_ifs at h <;> omega

namespace Glyph

/-- The bytes have the shape of a character: an ASCII byte alone, or a lead byte with all the continuation
    bytes that it announces. -/
structure Shaped (g : Glyph) : Prop where
  length_tail : g.tail.length = continuations g.lead
  trailing : ∀ b ∈ g.tail, isTrailing b = true
  ascii : g.tail = [] → g.lead < 0x80

/-- **Bytes of the right shape are a form of their number.** -/
theorem Shaped.code_lt_and_bytes_eq {g : Glyph} (h : g.Shaped) :
    g.tail.length ≤ 3 ∧ g.code < leadRoom g.tail.length * 64 ^ g.tail.length ∧
      g.bytes = longForm g.tail.length g.code := by
  cases htail : g.tail with
  | nil =>
    have hlead := h.ascii htail
    have hcode : g.code = g.lead.toNat := by simp [code, htail, hlead]
    rw [UInt8.lt_iff_toNat_lt] at hlead
    refine ⟨Nat.zero_le 3, ?_, ?_⟩
    · rw [hcode]
      simpa [leadRoom] using hlead
    · simp [bytes, htail, longForm, sextets, leadMark, hcode]
  | cons b rest =>
    have hcode : g.code =
        gather (g.lead.toNat % (1 <<< (6 - (rest.length + 1)))) (b :: rest) := by
      simp [code, htail, gather]
    have hlength := h.length_tail
    rw [htail, List.length_cons] at hlength
    obtain ⟨hcount, hroom, hlead⟩ := lead_eq hlength.symm
    have hfront := gather_div (g.lead.toNat % (1 <<< (6 - (rest.length + 1)))) (b :: rest)
    have hdigits := sextets_gather (g.lead.toNat % (1 <<< (6 - (rest.length + 1))))
      (htail ▸ h.trailing : ∀ x ∈ b :: rest, isTrailing x = true)
    rw [← hcode, List.length_cons] at hfront hdigits
    refine ⟨hcount, ?_, ?_⟩
    · rw [List.length_cons, ← Nat.div_lt_iff_lt_mul (Nat.pow_pos (by decide)), hfront]
      exact hroom
    · rw [List.length_cons, longForm, hfront, hlead, hdigits, UInt8.ofNat_toNat, bytes, htail]

/-- A decoded character has this shape, or is a byte that is replaced. -/
theorem shaped_or_replaced (lead : UInt8) (rest : Bytes) :
    (ofLead lead rest).Shaped ∨ ∃ b, 0x80 ≤ b ∧ ofLead lead rest = ⟨b, []⟩ := by
  by_cases hascii : lead < 0x80
  · left
    have hzero : continuations lead = 0 := by
      have hlt : lead < 0xC0 := UInt8.lt_trans hascii (by decide)
      simp [continuations, hlt]
    have htail := trail_of_continuations_eq_zero hzero rest
    exact ⟨by simp [ofLead, htail, hzero], by simp [ofLead, htail], fun _ => hascii⟩
  · rcases trail_eq_or lead rest with ⟨heq, hlength, hall⟩ | hnil
    · cases htail : trail lead rest with
      | nil => exact Or.inr ⟨lead, UInt8.not_lt.mp hascii, by rw [ofLead, htail]⟩
      | cons b more =>
        left
        refine ⟨?_, ?_, ?_⟩
        · show (trail lead rest).length = continuations lead
          rw [heq, List.length_take, Nat.min_eq_left hlength]
        · exact fun b => isTrailing_of_mem_trail
        · intro hempty
          have hempty : trail lead rest = [] := hempty
          rw [htail] at hempty
          cases hempty
    · exact Or.inr ⟨lead, UInt8.not_lt.mp hascii, by rw [ofLead, hnil]⟩

theorem shaped_ofChar (c : Char) : (ofChar c).Shaped where
  length_tail := (continuations_ofChar c).symm
  trailing _ := isTrailing_of_mem_ofChar
  ascii htail := by
    rcases ofChar_cases c with ⟨hlt, heq⟩ | ⟨-, -, heq⟩ | ⟨-, -, heq⟩ | ⟨-, -, heq⟩ <;>
      rw [heq] at htail ⊢
    · rw [UInt8.lt_iff_toNat_lt, UInt8.toNat_ofNat']
      show c.toNat % 256 < 128
      omega
    all_goals cases htail

end Glyph

/-- **UTF-8 is one of the forms**: that of the length that the scalar value needs. -/
theorem utf8EncodeChar_eq_longForm (c : Char) :
    String.utf8EncodeChar c = longForm (c.utf8Size - 1) c.toNat := by
  have hform := (Glyph.shaped_ofChar c).code_lt_and_bytes_eq.2.2
  have hlength := congrArg List.length (Glyph.bytes_ofChar c)
  rw [Glyph.length_bytes, Glyph.width, String.length_utf8EncodeChar] at hlength
  rw [Glyph.bytes_ofChar, Glyph.code_ofChar] at hform
  rw [hform, ← hlength, Nat.add_sub_cancel]

/-! ## What one step reads -/

/-- **The character that bytes are read as** when one step takes them. -/
inductive ReadAs : Bytes → CodePoint → Prop where
  /-- A byte that forms no character is replaced. -/
  | replaced {b : UInt8} (h : 0x80 ≤ b) : ReadAs [b] CodePoint.replacement
  /-- A form of any length up to four, of any number that it has room for. -/
  | formed {count code : Nat} (hcount : count ≤ 3) (hcode : code < leadRoom count * 64 ^ count) :
      ReadAs (longForm count code) code

/-- The bytes are UTF-8 for the character, or one byte that is replaced. -/
def IsFaithful (taken : Bytes) (code : CodePoint) : Prop :=
  (taken.length = 1 ∧ code = CodePoint.replacement) ∨
    ∃ c : Char, c.toNat = code ∧ String.utf8EncodeChar c = taken

namespace ReadAs

variable {taken taken' : Bytes} {code : CodePoint}

theorem of_ofLead (lead : UInt8) (rest : Bytes) :
    ReadAs (Glyph.ofLead lead rest).bytes (Glyph.ofLead lead rest).code := by
  rcases Glyph.shaped_or_replaced lead rest with hshaped | ⟨b, hb, heq⟩
  · obtain ⟨hcount, hcode, hbytes⟩ := hshaped.code_lt_and_bytes_eq
    rw [hbytes]
    exact .formed hcount hcode
  · have hcode : (⟨b, []⟩ : Glyph).code = CodePoint.replacement := by
      simp [Glyph.code, UInt8.not_lt.mpr hb]
    rw [heq, hcode]
    exact .replaced hb

/-- **The character and the length determine the bytes**, except for what is replaced. -/
theorem eq_of_length_eq (h : ReadAs taken code) (h' : ReadAs taken' code)
    (hlength : taken.length = taken'.length) (hcode : code ≠ CodePoint.replacement) :
    taken = taken' := by
  cases h with
  | replaced _ => exact absurd rfl hcode
  | formed _ _ =>
    cases h' with
    | replaced _ => exact absurd rfl hcode
    | formed _ _ =>
      rw [length_longForm, length_longForm, Nat.succ_inj] at hlength
      rw [hlength]

/-- **Where bytes are UTF-8**: they are not more than the character needs. -/
theorem isFaithful_iff (h : ReadAs taken code) :
    IsFaithful taken code ↔ taken.length = 1 ∨ ∃ c : Char, c.toNat = code ∧ c.utf8Size = taken.length := by
  constructor
  · rintro (⟨hone, -⟩ | ⟨c, hc, rfl⟩)
    · exact Or.inl hone
    · exact Or.inr ⟨c, hc, (String.length_utf8EncodeChar c).symm⟩
  · intro hshort
    cases h with
    | replaced _ => exact Or.inl ⟨rfl, rfl⟩
    | @formed count code hcount hcode =>
      right
      rw [length_longForm] at hshort
      rcases hshort with hone | ⟨c, hc, hsize⟩
      · -- one byte without a mark is below 0x80, where every number is a scalar value of one byte
        obtain rfl : count = 0 := Nat.succ.inj hone
        rw [leadRoom, Nat.pow_zero, Nat.mul_one] at hcode
        have hvalid : (Char.ofNat code).toNat = code := by
          rw [Char.ofNat, dif_pos (Or.inl (by omega))]
          rfl
        refine ⟨Char.ofNat code, hvalid, ?_⟩
        have hsize : (Char.ofNat code).utf8Size = 1 := by
          rw [Char.utf8Size_eq_one_iff, UInt32.le_iff_toNat_le]
          show (Char.ofNat code).toNat ≤ 127
          omega
        rw [utf8EncodeChar_eq_longForm, hsize, hvalid]
      · refine ⟨c, hc, ?_⟩
        rw [utf8EncodeChar_eq_longForm, hsize, hc, Nat.add_sub_cancel]

end ReadAs

namespace Cursor

/-- The cursor has taken the bytes and returned the character. -/
structure Takes (c : Cursor) (taken : Bytes) (code : CodePoint) : Prop where
  next : c.next.1 = some code
  position : c.next.2.position = c.position + taken.length
  remaining : c.remaining = taken ++ c.next.2.remaining

/-- Where there is something left, a step takes bytes and returns the character that they are read as. -/
theorem exists_takes {c : Cursor} (h : c.atEnd = false) : ∃ taken code, c.Takes taken code ∧
    ReadAs taken code := by
  cases hremaining : c.remaining with
  | nil =>
    rw [atEnd, decide_eq_false_iff_not] at h
    rw [remaining, List.drop_eq_nil_iff] at hremaining
    exact absurd hremaining h
  | cons lead rest =>
    have hnext : c.next = (some (Glyph.ofLead lead rest).code,
        { c with position := c.position + (Glyph.ofLead lead rest).width
                 undo := some (Glyph.ofLead lead rest).width }) := by
      rw [next, hremaining]
      rfl
    refine ⟨_, _, ⟨?_, ?_, ?_⟩, ReadAs.of_ofLead lead rest⟩
    · rw [hnext]
    · rw [hnext, Glyph.length_bytes]
    · have hbehind : c.next.2.remaining = rest.drop (Glyph.trail lead rest).length := by
        rw [hnext]
        show c.text.drop (c.position + (Glyph.ofLead lead rest).width) = _
        rw [← List.drop_drop, ← remaining, hremaining]
        rfl
      rw [hbehind, hremaining, Glyph.bytes, Glyph.ofLead, List.cons_append, Glyph.trail_append_drop]

/-- The bytes that a step takes are read as the character that it returns. -/
theorem Takes.readAs {c : Cursor} {taken : Bytes} {code : CodePoint} (h : c.Takes taken code) :
    ReadAs taken code := by
  have hmore : c.atEnd = false := by
    rw [Bool.eq_false_iff]
    intro hend
    have hnone := next_of_ahead_nil (atEnd_iff.mp hend)
    rw [Prod.ext_iff, h.next] at hnone
    cases hnone.1
  obtain ⟨other, code', hother, hread⟩ := exists_takes hmore
  obtain rfl := Option.some.inj (hother.next.symm.trans h.next)
  obtain rfl := List.append_cancel_right (hother.remaining.symm.trans h.remaining)
  exact hread

/-- **What every step reads.** Wherever moves have led a cursor, one step more takes up to four bytes and
    returns the number that they are a form of, or takes one byte and returns U+FFFD. Such bytes are UTF-8,
    or replaced, exactly if they are not more than the character needs. No step of any cursor takes other
    bytes, as many, for the same character, unless they are replaced. -/
theorem next_readAs {text : Bytes} {moves : List Move}
    (h : ((ofText text).after moves).atEnd = false) :
    ∃ taken code, ((ofText text).after moves).Takes taken code ∧ ReadAs taken code ∧
      (IsFaithful taken code ↔
        taken.length = 1 ∨ ∃ c : Char, c.toNat = code ∧ c.utf8Size = taken.length) ∧
      ∀ (other : Cursor) (taken' : Bytes), other.Takes taken' code → taken'.length = taken.length →
        code ≠ CodePoint.replacement → taken' = taken := by
  obtain ⟨taken, code, htakes, hread⟩ := exists_takes h
  refine ⟨taken, code, htakes, hread, hread.isFaithful_iff, ?_⟩
  intro other taken' htakes' hlength hcode
  exact htakes'.readAs.eq_of_length_eq hread hlength hcode

/-- A slash in two bytes, behind a letter. -/
theorem next_readAs_longSlash :
    let c := (ofText [0x61, 0xc0, 0xaf]).after [.next]
    c.atEnd = false ∧ ∃ taken code, c.Takes taken code ∧ ReadAs taken code ∧
      (IsFaithful taken code ↔
        taken.length = 1 ∨ ∃ c : Char, c.toNat = code ∧ c.utf8Size = taken.length) ∧
      ∀ (other : Cursor) (taken' : Bytes), other.Takes taken' code → taken'.length = taken.length →
        code ≠ CodePoint.replacement → taken' = taken := by
  intro c
  have hmore : c.atEnd = false := by decide
  exact ⟨hmore, next_readAs hmore⟩

/-- Every character is returned for its UTF-8 form alone, and every other byte is replaced. -/
def ReadsFaithfully (text : Bytes) : Prop :=
  ∀ moves, ((ofText text).after moves).atEnd = false →
    ∃ taken code, ((ofText text).after moves).Takes taken code ∧ IsFaithful taken code

/-- A slash in two bytes is read as a slash. -/
theorem not_readsFaithfully_longSlash : ¬ ReadsFaithfully [0xc0, 0xaf] := by
  intro hfaithful
  obtain ⟨taken, code, htakes, hform⟩ := hfaithful [] (by decide)
  have hnext : (some 0x2f : Option CodePoint) = some code := htakes.next
  have hposition : 2 = 0 + taken.length := htakes.position
  obtain rfl := Option.some.inj hnext
  rcases hform with ⟨hone, -⟩ | ⟨c, hc, rfl⟩
  · omega
  · -- the scalar value is the slash, which needs one byte
    obtain rfl : c = '/' := Char.ext (UInt32.toNat_inj.mp hc)
    rw [String.length_utf8EncodeChar] at hposition
    revert hposition
    decide

end Cursor

end LoxLexer
