import LoxLexer.Command.Outcome
import LoxLexer.Proofs.Numerals
import LoxLexer.Proofs.Quotes

/-!
# `LoxLexer.Proofs.Dumping` — the printed tokens tell the tokens

A dump has a line for each token, but its lines do not tell where they end: the content of a string is printed
as it is, newlines and all, so it can look like lines of its own. Still no two token lists without floats
have one dump. Read from its start, a dump has one way to go on at each step, since every field ends at a byte
that cannot be in it: a name at a bracket or a blank, an identifier at a bracket, a number at any byte that is
no digit, and the content of a string at a quote, of which scanning leaves none inside.

Floats are apart: with fifteen digits, different doubles can be printed alike.

## Contents
- `Printed` — the printed payloads, with what scanning promises of them. `exists_printed` says that it does.
- `Kind.name_append_inj`, `Printed.append_inj`, `place_append_inj` — what a line says, field by field,
  whatever follows it; `line_append_inj` is the whole line.
- `eq_of_tokenDump_eq`, `tokens_eq_of_tokenDump_eq` — from the lines to the dump, and to scans.
-/

namespace LoxLexer

/-! ## Printed payloads -/

/-- The byte that ends a printed payload. -/
def closingBracket : UInt8 := ')'.toUInt8

/-- **What a line shows of the payload** of a kind, floats apart. The text in it does not hold the byte that
    ends it. -/
inductive Printed : Kind → Payload → Bytes → Prop where
  | bare {kind} (hkind : kind ∉ [.identifier, .string, .integer, .float]) : Printed kind .empty []
  | identifier {name} (hname : closingBracket ∉ name) :
      Printed .identifier (.text name) (ascii "(" ++ name ++ ascii ")")
  | string {content} (hcontent : quote ∉ content) :
      Printed .string (.text content) (ascii "(\"" ++ content ++ ascii "\")")
  | integer {n} : Printed .integer (.integer n) (ascii "(" ++ Decimal.signed n ++ ascii ")")

/-- The line of a token whose payload is printed as `detail`. -/
def summaryWith (t : Token) (detail : Bytes) : Bytes :=
  t.kind.name ++ detail ++ ascii " @" ++ Decimal.numeral t.span.offset ++ ascii "+" ++
    Decimal.numeral t.span.length

theorem Printed.summary?_eq {t : Token} {detail : Bytes} (h : Printed t.kind t.payload detail) :
    t.summary? = some (summaryWith t detail) := by
  obtain ⟨kind, span, payload⟩ := t
  cases h with
  | bare hkind =>
    cases kind with
    | symbol s => rfl
    | keyword k => rfl
    | endOfInput => rfl
    | _ => simp at hkind
  | identifier => rfl
  | string => rfl
  | integer => rfl

/-- No bracket in a word: a bracket of one byte is a character by itself, and no part of a word. -/
theorem closingBracket_not_mem_word {lexeme : List Glyph} (hword : IsWord lexeme)
    (hdecoded : Decoded lexeme) : closingBracket ∉ spell lexeme := by
  obtain ⟨first, body, rfl, hfirst, hbody⟩ := hword
  intro hmem
  obtain ⟨g, hg, hbytes⟩ := List.mem_flatMap.mp hmem
  have halone : g = ⟨closingBracket, []⟩ := hdecoded.eq_of_mem hg (by decide) hbytes
  have hpart : g.isWordPart = true := by
    rcases List.mem_cons.mp hg with rfl | hg
    · exact Glyph.isWordPart_iff.mpr (Or.inl hfirst)
    · exact hbody g hg
  rw [halone] at hpart
  revert hpart
  decide

/-- What a piece is read as can be printed and read back, unless it is a float. -/
theorem exists_printed_of_reading {p : Piece} {follow : List Glyph} (hmunched : Munched p follow)
    (hdecoded : Decoded p.lexeme) {kind : Kind} {payload : Payload}
    (hreading : p.reading = .token kind payload) (hfloat : kind ≠ .float) :
    ∃ detail, Printed kind payload detail := by
  have hmatches := hmunched.matches_of_reading hreading
  rcases Piece.reading_eq_token hreading with ⟨s, -, rfl, rfl⟩ | ⟨-, ⟨k, rfl, rfl⟩ | ⟨rfl, rfl⟩⟩ |
    ⟨-, rfl, n, -, rfl⟩ | ⟨-, rfl, -⟩ | ⟨-, rfl, rfl⟩
  · exact ⟨[], .bare (by simp)⟩
  · exact ⟨[], .bare (by simp)⟩
  · exact ⟨_, .identifier (closingBracket_not_mem_word hmatches hdecoded)⟩
  · exact ⟨_, .integer⟩
  · exact absurd rfl hfloat
  · exact ⟨_, .string (quote_not_mem_stringContent hmatches hdecoded)⟩

/-- **Every token but a float is printed in a way that can be read back.** -/
theorem exists_printed {source : Bytes} {t : Token} (ht : t ∈ (scan source).tokens)
    (hfloat : t.kind ≠ .float) : ∃ detail, Printed t.kind t.payload detail := by
  rcases mem_tokens_scan.mp ht with ⟨placed, hmem, htoken⟩ | rfl
  · obtain ⟨rest, hdecode, hmunched⟩ := munched_of_mem_placedPieces hmem
    have hdecoded : Decoded (placed.piece.lexeme ++ rest) := hdecode ▸ decoded_decode _
    exact exists_printed_of_reading hmunched hdecoded.of_append_left
      (Placed.token?_eq_some.mp htoken).1 hfloat
  · exact ⟨[], .bare (by simp [endToken])⟩

/-! ## One line, whatever follows -/

/-- A field ends at the first byte that cannot be in it. -/
theorem field_append_inj {field field' rest rest' : Bytes} {x y : UInt8} (hy : y ∉ field)
    (hx : x ∉ field') (h : field ++ x :: rest = field' ++ y :: rest') :
    field = field' ∧ x = y ∧ rest = rest' := by
  rcases List.append_eq_append_iff.mp h with ⟨more, rfl, hrest⟩ | ⟨more, rfl, hrest⟩
  · cases more with
    | nil =>
      obtain ⟨rfl, rfl⟩ := List.cons.inj hrest
      exact ⟨(List.append_nil _).symm, rfl, rfl⟩
    | cons b more =>
      obtain ⟨rfl, -⟩ := List.cons.inj hrest
      exact absurd (List.mem_append_right field List.mem_cons_self) hx
  · cases more with
    | nil =>
      obtain ⟨rfl, rfl⟩ := List.cons.inj hrest
      exact ⟨List.append_nil _, rfl, rfl⟩
    | cons b more =>
      obtain ⟨rfl, -⟩ := List.cons.inj hrest
      exact absurd (List.mem_append_right field' List.mem_cons_self) hy

/-- A name ends at the first bracket or blank. -/
theorem Kind.name_append_inj {j k : Kind} {x y : UInt8} {rest rest' : Bytes} (hx : x ∈ ascii "( ")
    (hy : y ∈ ascii "( ") (h : j.name ++ x :: rest = k.name ++ y :: rest') :
    j = k ∧ x :: rest = y :: rest' := by
  have hnames : ∀ k ∈ Kind.all, ∀ b ∈ ascii "( ", b ∉ k.name := by decide +kernel
  obtain ⟨hname, hbyte, hrest⟩ := field_append_inj (hnames j (Kind.mem_all j) y hy)
    (hnames k (Kind.mem_all k) x hx) h
  exact ⟨Kind.name_injective j k hname, List.cons_eq_cons.mpr ⟨hbyte, hrest⟩⟩

/-- Digits and a minus sign are no brackets. -/
theorem closingBracket_not_mem_signed (n : Int) : closingBracket ∉ Decimal.signed n := by
  have hsign : closingBracket ∉ ascii "-" := by decide
  have hdigits : closingBracket ∉ Decimal.numeral n.natAbs := Decimal.not_mem_numeral (by decide) _
  unfold Decimal.signed
  split <;> simp [hsign, hdigits]

namespace Printed

variable {kind : Kind} {payload payload' : Payload} {detail detail' : Bytes}

/-- Behind a name comes a bracket or a blank. -/
theorem exists_cons (h : Printed kind payload detail) (rest : Bytes) :
    ∃ x more, x ∈ ascii "( " ∧ detail ++ (ascii " @" ++ rest) = x :: more := by
  cases h with
  | bare => exact ⟨0x20, _, by decide, rfl⟩
  | identifier => exact ⟨0x28, _, by decide, rfl⟩
  | string => exact ⟨0x28, _, by decide, rfl⟩
  | integer => exact ⟨0x28, _, by decide, rfl⟩

/-- **A printed payload tells the payload** of its kind, and where it ends. -/
theorem append_inj (h : Printed kind payload detail) (h' : Printed kind payload' detail')
    {rest rest' : Bytes}
    (heq : detail ++ (ascii " @" ++ rest) = detail' ++ (ascii " @" ++ rest')) :
    payload = payload' ∧ rest = rest' := by
  cases h with
  | bare hkind =>
    cases h' with
    | bare => exact ⟨rfl, List.append_cancel_left heq⟩
    | identifier => simp at hkind
    | string => simp at hkind
    | integer => simp at hkind
  | @identifier name hname =>
    cases h' with
    | bare hkind => simp at hkind
    | @identifier name' hname' =>
      have hfields : name ++ closingBracket :: (ascii " @" ++ rest) =
          name' ++ closingBracket :: (ascii " @" ++ rest') := by
        simp only [List.append_assoc] at heq
        exact List.append_cancel_left heq
      obtain ⟨rfl, -, hrest⟩ := field_append_inj hname hname' hfields
      exact ⟨rfl, List.append_cancel_left hrest⟩
  | @string content hcontent =>
    cases h' with
    | bare hkind => simp at hkind
    | @string content' hcontent' =>
      -- the content ends at the first quote, and a bracket follows
      have hfields : content ++ quote :: closingBracket :: (ascii " @" ++ rest) =
          content' ++ quote :: closingBracket :: (ascii " @" ++ rest') := by
        simp only [List.append_assoc] at heq
        exact List.append_cancel_left heq
      obtain ⟨rfl, -, hrest⟩ := field_append_inj hcontent hcontent' hfields
      exact ⟨rfl, List.append_cancel_left (List.cons.inj hrest).2⟩
  | @integer n =>
    cases h' with
    | bare hkind => simp at hkind
    | @integer n' =>
      have hfields : Decimal.signed n ++ closingBracket :: (ascii " @" ++ rest) =
          Decimal.signed n' ++ closingBracket :: (ascii " @" ++ rest') := by
        simp only [List.append_assoc] at heq
        exact List.append_cancel_left heq
      obtain ⟨hsigned, -, hrest⟩ := field_append_inj (closingBracket_not_mem_signed n)
        (closingBracket_not_mem_signed n') hfields
      exact ⟨congrArg Payload.integer (Decimal.signed_injective hsigned),
        List.append_cancel_left hrest⟩

end Printed

/-- A numeral ends at any byte that is no digit. -/
theorem numeral_append_inj {m n : Nat} {b : UInt8} (hb : Decimal.isDigit b = false) {rest rest' : Bytes}
    (h : Decimal.numeral m ++ b :: rest = Decimal.numeral n ++ b :: rest') : m = n ∧ rest = rest' := by
  obtain ⟨hnumeral, -, hrest⟩ :=
    field_append_inj (Decimal.not_mem_numeral hb m) (Decimal.not_mem_numeral hb n) h
  exact ⟨Decimal.numeral_injective hnumeral, hrest⟩

/-- The two numbers at the end of a line tell the span. -/
theorem place_append_inj {s s' : Span} {rest rest' : Bytes}
    (h : Decimal.numeral s.offset ++ (ascii "+" ++ (Decimal.numeral s.length ++ newline :: rest)) =
      Decimal.numeral s'.offset ++ (ascii "+" ++ (Decimal.numeral s'.length ++ newline :: rest'))) :
    s = s' ∧ rest = rest' := by
  obtain ⟨hoffset, hlengths⟩ := numeral_append_inj (b := 0x2b) (by decide) h
  obtain ⟨hlength, hrest⟩ := numeral_append_inj (b := newline) (by decide) hlengths
  obtain ⟨offset, length⟩ := s
  obtain ⟨offset', length'⟩ := s'
  obtain rfl : offset = offset' := hoffset
  obtain rfl : length = length' := hlength
  exact ⟨rfl, hrest⟩

/-- **A line tells its token**, and where it ends. -/
theorem line_append_inj {t t' : Token} {detail detail' : Bytes}
    (h : Printed t.kind t.payload detail) (h' : Printed t'.kind t'.payload detail')
    {rest rest' : Bytes}
    (heq : endLine (summaryWith t detail) ++ rest = endLine (summaryWith t' detail') ++ rest') :
    t = t' ∧ rest = rest' := by
  simp only [summaryWith, endLine, List.append_assoc, List.singleton_append] at heq
  obtain ⟨x, more, hx, hmore⟩ := h.exists_cons (Decimal.numeral t.span.offset ++
    (ascii "+" ++ (Decimal.numeral t.span.length ++ newline :: rest)))
  obtain ⟨x', more', hx', hmore'⟩ := h'.exists_cons (Decimal.numeral t'.span.offset ++
    (ascii "+" ++ (Decimal.numeral t'.span.length ++ newline :: rest')))
  rw [hmore, hmore'] at heq
  obtain ⟨hkind, hdetail⟩ := Kind.name_append_inj hx hx' heq
  rw [← hmore, ← hmore'] at hdetail
  rw [hkind] at h
  obtain ⟨hpayload, hplace⟩ := h.append_inj h' hdetail
  obtain ⟨hspan, hrest⟩ := place_append_inj hplace
  obtain ⟨kind, span, payload⟩ := t
  obtain ⟨kind', span', payload'⟩ := t'
  obtain rfl : kind = kind' := hkind
  obtain rfl : span = span' := hspan
  obtain rfl : payload = payload' := hpayload
  exact ⟨rfl, hrest⟩

/-! ## Whole dumps -/

theorem tokenDump_cons {t : Token} {detail : Bytes} (h : Printed t.kind t.payload detail)
    (ts : List Token) : tokenDump (t :: ts) = endLine (summaryWith t detail) ++ tokenDump ts := by
  rw [tokenDump, List.filterMap_cons, h.summary?_eq, List.flatMap_cons, tokenDump]

/-- **A dump tells its tokens**, line by line. -/
theorem eq_of_tokenDump_eq {ts us : List Token}
    (hts : ∀ t ∈ ts, ∃ detail, Printed t.kind t.payload detail)
    (hus : ∀ t ∈ us, ∃ detail, Printed t.kind t.payload detail) (h : tokenDump ts = tokenDump us) :
    ts = us := by
  -- a dump without lines is empty, and no line is
  have hnil : ∀ {u us} {detail : Bytes}, Printed u.kind u.payload detail →
      tokenDump [] ≠ tokenDump (u :: us) := by
    intro u us detail hu heq
    rw [tokenDump_cons hu] at heq
    simp [tokenDump, endLine] at heq
  induction ts generalizing us with
  | nil =>
    cases us with
    | nil => rfl
    | cons u us =>
      obtain ⟨detail, hu⟩ := hus u List.mem_cons_self
      exact absurd h (hnil hu)
  | cons t ts ih =>
    obtain ⟨⟨detail, ht⟩, hts⟩ := List.forall_mem_cons.mp hts
    cases us with
    | nil => exact absurd h.symm (hnil ht)
    | cons u us =>
      obtain ⟨⟨detail', hu⟩, hus⟩ := List.forall_mem_cons.mp hus
      rw [tokenDump_cons ht, tokenDump_cons hu] at h
      obtain ⟨hsame, hrest⟩ := line_append_inj ht hu h
      rw [hsame, ih hts hus hrest]

/-- **Scans with one dump have the same tokens**: the same kinds, places and payloads. Errors make no
    difference. -/
theorem tokens_eq_of_tokenDump_eq {left right : Bytes}
    (hleft : ∀ t ∈ (scan left).tokens, t.kind ≠ .float)
    (hright : ∀ t ∈ (scan right).tokens, t.kind ≠ .float)
    (h : tokenDump (scan left).tokens = tokenDump (scan right).tokens) :
    (scan left).tokens = (scan right).tokens :=
  eq_of_tokenDump_eq (fun t ht => exists_printed ht (hleft t ht))
    (fun t ht => exists_printed ht (hright t ht)) h

/-- Two texts that differ in a blank. The string in them is printed as the end of a line and a line like the
    one for the end of the input. -/
theorem tokens_eq_of_tokenDump_eq_imitation :
    let left := ascii "\") @0+2\nEof @2+0\" "
    let right := ascii "\") @0+2\nEof @2+0\"\t"
    (∀ t ∈ (scan left).tokens, t.kind ≠ .float) ∧ (∀ t ∈ (scan right).tokens, t.kind ≠ .float) ∧
      tokenDump (scan left).tokens = tokenDump (scan right).tokens ∧
      (scan left).tokens = (scan right).tokens := by
  have hleft : (scan (ascii "\") @0+2\nEof @2+0\" ")).tokens =
      [⟨.string, ⟨0, 17⟩, .text (ascii ") @0+2\nEof @2+0")⟩, endToken 18] := by decide +kernel
  have hright : (scan (ascii "\") @0+2\nEof @2+0\"\t")).tokens =
      [⟨.string, ⟨0, 17⟩, .text (ascii ") @0+2\nEof @2+0")⟩, endToken 18] := by decide +kernel
  have hkinds : ∀ t ∈ [⟨.string, ⟨0, 17⟩, .text (ascii ") @0+2\nEof @2+0")⟩, endToken 18],
      t.kind ≠ .float := by decide
  intro left right
  have hdump : tokenDump (scan left).tokens = tokenDump (scan right).tokens :=
    congrArg tokenDump (hleft.trans hright.symm)
  exact ⟨hleft ▸ hkinds, hright ▸ hkinds, hdump,
    tokens_eq_of_tokenDump_eq (hleft ▸ hkinds) (hright ▸ hkinds) hdump⟩

end LoxLexer
