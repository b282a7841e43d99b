import LoxLexer.Proofs.Coverage
import LoxLexer.Proofs.LongestMatch
import LoxLexer.Proofs.Outcome

/-!
# `LoxLexer.Proofs.Typing` — every token carries what its kind asks for

Nothing in the type of a token ties its payload to its kind: the two are chosen apart wherever a token is noted,
and printing has no result where they do not fit. That they always fit is an invariant of the scanner. A turn
notes one piece at most, and what a piece is read as depends on its shape alone, so the invariant is checked
once for each shape, kept by every turn, and true of the tokens at any time of a run.

## Contents
- `WellTyped` — what each kind asks for, the lexeme of the token at hand. `WellTyped.exists_summary?` says
  that such a token can be printed.
- `wellTyped_of_token?` — a piece that is a token, by its shape.
- `Scanner.forall_wellTyped_scanToken`, `Scanner.forall_wellTyped_of_reaches` — a turn and a run.
- `scan_wellTyped` — the tokens on the way, and those that scanning returns.
-/

namespace LoxLexer

/-! ## What kinds ask for -/

/-- **The token carries what its kind asks for**, as a token of the given text. -/
structure WellTyped (source : Bytes) (t : Token) : Prop where
  /-- An identifier carries its lexeme, and this is no reserved word. -/
  identifier : t.kind = .identifier →
    t.payload = .text (t.span.slice source) ∧ ∀ k : Keyword, t.span.slice source ≠ k.spelling
  /-- A string carries text, two bytes shorter than its lexeme. -/
  string : t.kind = .string →
    ∃ content, t.payload = .text content ∧ content.length + 2 = t.span.length
  /-- An integer carries a number that fits a signed 64-bit word. -/
  integer : t.kind = .integer → ∃ n : Nat, t.payload = .integer n ∧ n ≤ Number.greatestInteger
  float : t.kind = .float → ∃ x, t.payload = .float x
  bare : t.kind ∉ [.identifier, .string, .integer, .float] → t.payload = .empty

/-- A token that carries what its kind asks for has its printed form. -/
theorem WellTyped.exists_summary? {source : Bytes} {t : Token} (h : WellTyped source t) :
    ∃ line, t.summary? = some line := by
  have hdetail : ∃ detail, t.detail? = some detail := by
    cases hkind : t.kind with
    | identifier => simp [Token.detail?, hkind, (h.identifier hkind).1]
    | string =>
      obtain ⟨content, hpayload, -⟩ := h.string hkind
      simp [Token.detail?, hkind, hpayload]
    | integer =>
      obtain ⟨n, hpayload, -⟩ := h.integer hkind
      simp [Token.detail?, hkind, hpayload]
    | float =>
      obtain ⟨x, hpayload⟩ := h.float hkind
      simp [Token.detail?, hkind, hpayload]
    | _ => simp [Token.detail?, hkind]
  obtain ⟨detail, hdetail⟩ := hdetail
  exact ⟨_, by rw [Token.summary?, hdetail, Option.map_some]⟩

/-! ## Pieces -/

theorem length_stringContent (lexeme : Bytes) : (stringContent lexeme).length = lexeme.length - 2 := by
  rw [stringContent, List.length_take, List.length_drop]
  omega

/-- A string has two quotes, so it is at least two bytes long. -/
theorem two_le_width_of_isQuoted {p : Piece} (h : IsQuoted p.lexeme) : 2 ≤ p.width := by
  obtain ⟨opening, body, closing, hlexeme, -⟩ := h
  have hopening := opening.width_pos
  have hclosing := closing.width_pos
  rw [Piece.width, Piece.bytes, hlexeme]
  simp only [spell_cons, spell_append, spell_nil, List.length_append, Glyph.length_bytes,
    List.length_nil]
  omega

/-- **A piece that is a token is well typed**, whatever shape it has. -/
theorem wellTyped_of_token? {source : Bytes} {placed : Placed} {follow : List Glyph} {t : Token}
    (hmunched : Munched placed.piece follow)
    (hslice : placed.span.slice source = placed.piece.bytes) (htoken : placed.token? = some t) :
    WellTyped source t := by
  obtain ⟨offset, p⟩ := placed
  obtain ⟨kind, span, payload⟩ := t
  obtain ⟨hreading, rfl⟩ := Placed.token?_eq_some.mp htoken
  dsimp only at hmunched hslice hreading
  rcases Piece.reading_eq_token hreading with ⟨s, -, rfl, rfl⟩ |
    ⟨hform, ⟨k, rfl, rfl⟩ | ⟨rfl, rfl⟩⟩ | ⟨-, rfl, n, hn, rfl⟩ | ⟨-, rfl, x, -, rfl⟩ |
    ⟨hform, rfl, rfl⟩
  · constructor <;> simp
  · constructor <;> simp
  · -- an identifier: its bytes were looked up and are not reserved
    have hword := (Kind.ofWord_iff p.bytes).2.mp (Piece.kind_of_word hform hreading).symm
    constructor <;> simp [hslice, hword]
  · have hrange : ∃ m : Nat, n = m ∧ m ≤ Number.greatestInteger := by
      unfold Number.integer? at hn
      split at hn
      · rename_i hfits
        exact ⟨_, (Option.some.inj hn).symm, hfits.2⟩
      · cases hn
    constructor <;> simp [hrange]
  · constructor <;> simp
  · have hcontent : (stringContent p.bytes).length + 2 = p.width := by
      rw [length_stringContent]
      exact Nat.sub_add_cancel (two_le_width_of_isQuoted (hmunched.isQuoted hform))
    constructor <;> simp [hcontent, Placed.span]

theorem wellTyped_endToken (source : Bytes) (offset : Nat) : WellTyped source (endToken offset) := by
  constructor <;> simp [endToken]

/-! ## Runs -/

namespace Scanner

variable {source : Bytes} {report : Report} {s : Scanner}

/-- The bytes of a piece that is ahead are what the text has where the scanner stands. -/
theorem slice_of_ahead {p : Piece} {follow : List Glyph} (htext : s.cursor.text = source)
    (hahead : s.cursor.ahead = p.lexeme ++ follow) :
    (Placed.span ⟨s.cursor.position, p⟩).slice source = p.bytes := by
  have hremaining : source.drop s.cursor.position = p.bytes ++ spell follow := by
    rw [← htext, Piece.bytes, ← spell_append, ← hahead, Cursor.spell_ahead]
    rfl
  show (source.drop s.cursor.position).take p.width = p.bytes
  rw [hremaining]
  exact List.take_left

/-- **The step**: a turn notes no other token than the piece that it takes. -/
theorem forall_wellTyped_scanToken (htext : s.cursor.text = source) (hmore : s.cursor.atEnd = false)
    (h : ∀ t ∈ s.tokens, WellTyped source t) : ∀ t ∈ s.scanToken.tokens, WellTyped source t := by
  obtain ⟨p, follow, hmunched, hahead⟩ := exists_munched_ahead hmore
  intro t ht
  rw [(scanToken_takes hmunched hahead).tokens, List.mem_append] at ht
  rcases ht with hbefore | hnew
  · exact h t hbefore
  · rw [tokensAt_cons, List.mem_append, Option.mem_toList] at hnew
    have htoken := hnew.resolve_right List.not_mem_nil
    exact wellTyped_of_token? hmunched (slice_of_ahead htext hahead) htoken

/-- **The run**: at any time, all tokens noted so far are well typed. -/
theorem forall_wellTyped_of_reaches (h : StateTransition.Reaches turn (ofSource report source) s) :
    s.cursor.text = source ∧ ∀ t ∈ s.tokens, WellTyped source t := by
  induction h with
  | refl => exact ⟨rfl, fun t ht => absurd ht List.not_mem_nil⟩
  | tail _ hturn ih =>
    obtain ⟨htext, htokens⟩ := ih
    obtain ⟨hmore, -, rfl⟩ := turn_eq_some.mp hturn
    obtain ⟨p, hp⟩ := exists_takes_scanToken hmore
    exact ⟨hp.reads.text.trans htext, forall_wellTyped_scanToken htext hmore htokens⟩

/-- At any time of a run, the tokens noted so far and the one that would close them now are well typed. -/
theorem forall_wellTyped_toScan (h : StateTransition.Reaches turn (ofSource report source) s) :
    ∀ t ∈ s.toScan.tokens, WellTyped source t := by
  intro t ht
  rcases List.mem_append.mp ht with hnoted | hend
  · exact (forall_wellTyped_of_reaches h).2 t hnoted
  · rw [List.mem_singleton.mp hend]
    exact wellTyped_endToken source _

end Scanner

theorem wellTyped_of_mem_tokens {source : Bytes} {t : Token} (ht : t ∈ (scan source).tokens) :
    WellTyped source t := by
  rcases mem_tokens_scan.mp ht with ⟨placed, hmem, htoken⟩ | rfl
  · obtain ⟨rest, -, hmunched⟩ := munched_of_mem_placedPieces hmem
    exact wellTyped_of_token? hmunched (slice_of_mem_placedPieces hmem) htoken
  · exact wellTyped_endToken source _

/-- **Every token carries what its kind asks for**, at any time of a run and in the end, so there is no token
    that cannot be printed. -/
theorem scan_wellTyped (source : Bytes) :
    (∀ report s, StateTransition.Reaches Scanner.turn (Scanner.ofSource report source) s →
      ∀ t ∈ s.toScan.tokens, WellTyped source t) ∧
    ∀ t ∈ (scan source).tokens, WellTyped source t ∧ ∃ line, t.summary? = some line := by
  constructor
  · exact fun _ _ => Scanner.forall_wellTyped_toScan
  · intro t ht
    have htyped := wellTyped_of_mem_tokens ht
    exact ⟨htyped, htyped.exists_summary?⟩

end LoxLexer
