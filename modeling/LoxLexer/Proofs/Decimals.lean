import LoxLexer.Proofs.Nearest
import LoxLexer.Proofs.Numerals
import LoxLexer.Proofs.Overlapping

/-!
# `LoxLexer.Proofs.Decimals` — decimals are correctly rounded, or reported

Digits, a point and digits denote a rational number, with no bound on their length. In characters of one byte
each, they are read as the nearest double, of two equally near ones the even one, unless the nearest would be
infinite. With a longer digit or point they are never read. Hence a float of a scan is a number, and not
negative, not even a negative zero, so that a token list equals itself.

## Contents
- `decimalValue`, `FitsDecimal` — what digits, a point and digits denote, and which of them can be read.
  `float?_spell` says what they are read as.
- `DecimalAt` — where a text has a decimal; `DecimalAt.placed` is the piece there, and
  `exists_decimal_of_mem_tokens` goes back from a float. `isEqv_tokens` says that token lists equal themselves.
- `ExactDecimals` — what is claimed of a text and its scan; `scan_decimals` proves it of every text.
-/

namespace LoxLexer

/-! ## Digits and a point as bytes -/

namespace Number

theorem ne_point {text : Bytes} (h : point ∉ text) : ∀ b ∈ text, (b != point) = true := by
  intro b hb
  rw [bne_iff_ne]
  rintro rfl
  exact h hb

/-- A lexeme with a point in it is taken apart at the first one. -/
theorem halves_append {whole : Bytes} (h : point ∉ whole) (fraction : Bytes) :
    halves (whole ++ point :: fraction) = (whole, fraction) := by
  have htake : (whole ++ point :: fraction).takeWhile (· != point) = whole := by
    rw [List.takeWhile_append_of_pos (ne_point h), List.takeWhile_cons_of_neg (by simp),
      List.append_nil]
  simp only [halves, htake, List.drop_append, List.drop_eq_nil_of_le (Nat.le_succ _),
    Nat.add_sub_cancel_left, List.drop_succ_cons, List.drop_zero, List.nil_append]

/-- A lexeme without a point has nothing behind it. -/
theorem halves_of_not_mem {lexeme : Bytes} (h : point ∉ lexeme) : (halves lexeme).2 = [] := by
  have htake : lexeme.takeWhile (· != point) = lexeme := List.takeWhile_eq_self_iff.mpr (ne_point h)
  simp only [halves, htake, List.drop_eq_nil_of_le (Nat.le_succ _)]

/-- **What is read as a float is digit bytes**, and a point byte between them. -/
theorem exists_halves_of_float? {lexeme : Bytes} {x : Binary64} (h : float? lexeme = some x) :
    ∃ whole fraction, lexeme = whole ++ point :: fraction ∧ whole.all Decimal.isDigit ∧
      fraction.all Decimal.isDigit := by
  unfold float? at h
  dsimp only at h
  split at h
  · rename_i hform
    obtain ⟨hwhole, hfraction, hne⟩ := hform
    by_cases hmem : point ∈ lexeme
    · obtain ⟨whole, fraction, rfl, hbefore⟩ := List.eq_append_cons_of_mem hmem
      rw [halves_append hbefore] at hwhole hfraction
      exact ⟨whole, fraction, rfl, hwhole, hfraction⟩
    · exact absurd (halves_of_not_mem hmem) hne
  · cases h

/-- Digits are not points. -/
theorem point_not_mem {digits : Bytes} (h : digits.all Decimal.isDigit) : point ∉ digits := by
  intro hmem
  have hdigit := List.all_eq_true.mp h point hmem
  revert hdigit
  decide

/-- Digit bytes, a point byte and digit bytes are read as a quotient by a power of ten. -/
theorem float?_append {whole fraction : Bytes} (hwhole : whole.all Decimal.isDigit)
    (hfraction : fraction.all Decimal.isDigit) (hne : fraction ≠ []) :
    float? (whole ++ point :: fraction) =
      Binary64.nearest? (Decimal.value (whole ++ fraction)) (10 ^ fraction.length) := by
  simp only [float?, halves_append (point_not_mem hwhole)]
  exact if_pos ⟨hwhole, hfraction, hne⟩

end Number

/-! ## Digits and a point as characters -/

/-- The number that digits, a point and digits denote. -/
def decimalValue (whole fraction : List Glyph) : ℚ :=
  digitsValue whole + digitsValue fraction / 10 ^ fraction.length

/-- Digits and a point of one byte each, with a value below what would be read as infinite. -/
def FitsDecimal (whole : List Glyph) (point : Glyph) (fraction : List Glyph) : Prop :=
  (∀ g ∈ whole ++ point :: fraction, g.width = 1) ∧ decimalValue whole fraction < Binary64.overflow

instance (whole : List Glyph) (point : Glyph) (fraction : List Glyph) :
    Decidable (FitsDecimal whole point fraction) := inferInstanceAs (Decidable (_ ∧ _))

section Reading

variable {whole fraction : List Glyph} {point : Glyph}

/-- A longer digit or point makes a decimal unreadable. -/
theorem width_eq_one_of_float? (hdecoded : Decoded (whole ++ point :: fraction)) {x : Binary64}
    (h : Number.float? (spell (whole ++ point :: fraction)) = some x) :
    ∀ g ∈ whole ++ point :: fraction, g.width = 1 := by
  apply width_eq_one_of_ascii hdecoded
  obtain ⟨left, right, heq, hleft, hright⟩ := Number.exists_halves_of_float? h
  rw [heq]
  intro b hb
  rcases List.mem_append.mp hb with hb | hb
  · exact Decimal.lt_of_isDigit (List.all_eq_true.mp hleft b hb)
  · rcases List.mem_cons.mp hb with rfl | hb
    · decide
    · exact Decimal.lt_of_isDigit (List.all_eq_true.mp hright b hb)

/-- A point of one byte is the point byte. -/
theorem bytes_of_point (hpoint : point.is '.' = true) (hwidth : point.width = 1) :
    point.bytes = [Number.point] := by
  have hcode : point.code = 46 := Glyph.is_iff.mp hpoint
  have hlead : point.lead.toNat = 46 := by
    rw [Glyph.toNat_lead hwidth (by rw [hcode]; decide), hcode]
  have hbyte : point.lead = Number.point := UInt8.toNat_inj.mp hlead
  rw [Glyph.bytes_of_width hwidth, hbyte]

/-- In characters of one byte, digits, a point and digits are read as the quotient that they denote. -/
theorem exists_quotient (hdecoded : Decoded (whole ++ point :: fraction)) (hwhole : IsWhole whole)
    (hpoint : point.is '.' = true) (hfraction : IsWhole fraction)
    (hwidth : ∀ g ∈ whole ++ point :: fraction, g.width = 1) : ∃ num den : Nat, 0 < den ∧
      (num / den : ℚ) = decimalValue whole fraction ∧
      Number.float? (spell (whole ++ point :: fraction)) = Binary64.nearest? num den := by
  have hbehind : Decoded ([point] ++ fraction) := hdecoded.of_append_right
  obtain ⟨hwidthWhole, hwidthBehind⟩ := List.forall_mem_append.mp hwidth
  obtain ⟨hwidthPoint, hwidthFraction⟩ := List.forall_mem_cons.mp hwidthBehind
  have hwholeBytes := (spell_all_isDigit_iff hdecoded.of_append_left hwhole.2).mpr hwidthWhole
  have hfractionBytes := (spell_all_isDigit_iff hbehind.of_append_right hfraction.2).mpr hwidthFraction
  have hlength : (spell fraction).length = fraction.length := by
    rw [spell_of_width hwidthFraction, List.length_map]
  have hne : spell fraction ≠ [] := by
    rw [← List.length_pos_iff, hlength]
    exact List.length_pos_iff.mpr hfraction.1
  have hvalue : Decimal.value (spell whole ++ spell fraction) =
      digitsValue whole * 10 ^ fraction.length + digitsValue fraction := by
    rw [Decimal.value_append, value_spell hwidthWhole hwhole.2, value_spell hwidthFraction hfraction.2,
      hlength]
  refine ⟨digitsValue whole * 10 ^ fraction.length + digitsValue fraction, 10 ^ fraction.length,
    Nat.pow_pos (by decide), ?_, ?_⟩
  · rw [decimalValue]
    push_cast
    field_simp
  · rw [spell_append, spell_cons, bytes_of_point hpoint hwidthPoint, List.singleton_append,
      Number.float?_append hwholeBytes hfractionBytes hne, hvalue, hlength]

/-- **What a decimal is read as**: the nearest double, unless it cannot be read. -/
theorem float?_spell (hdecoded : Decoded (whole ++ point :: fraction)) (hwhole : IsWhole whole)
    (hpoint : point.is '.' = true) (hfraction : IsWhole fraction) :
    (FitsDecimal whole point fraction → ∃ x v,
      Number.float? (spell (whole ++ point :: fraction)) = some x ∧ x.negative = false ∧
        x.IsNearest (decimalValue whole fraction) v) ∧
    (¬ FitsDecimal whole point fraction →
      Number.float? (spell (whole ++ point :: fraction)) = none) := by
  constructor
  · rintro ⟨hwidth, hvalue⟩
    obtain ⟨num, den, hden, hquotient, hread⟩ :=
      exists_quotient hdecoded hwhole hpoint hfraction hwidth
    rw [← hquotient] at hvalue ⊢
    rw [hread]
    exact Binary64.exists_nearest hden hvalue
  · intro hfits
    by_cases hwidth : ∀ g ∈ whole ++ point :: fraction, g.width = 1
    · obtain ⟨num, den, hden, hquotient, hread⟩ :=
        exists_quotient hdecoded hwhole hpoint hfraction hwidth
      have hoverflow : Binary64.overflow ≤ (num / den : ℚ) := by
        rw [hquotient]
        exact not_lt.mp fun hlt => hfits ⟨hwidth, hlt⟩
      rw [hread, Binary64.nearest?_eq_none hden hoverflow]
    · rw [Option.eq_none_iff_forall_not_mem]
      intro x hx
      exact hwidth (width_eq_one_of_float? hdecoded hx)

/-- 2^53 + 1 is half way between two doubles. The even one is 2^53. -/
example : Number.float? (ascii "9007199254740993.0") = some ⟨0x4340000000000000⟩ := by decide +kernel

end Reading

/-! ## Decimals of a text -/

/-- A lexeme starts at the span, and the digits, the point and the digits there are all of it. -/
structure DecimalAt (source : Bytes) (span : Span) (whole : List Glyph) (point : Glyph)
    (fraction rest : List Glyph) : Prop where
  starts : StartsPiece source span.offset
  reads : SpanReads source span (whole ++ point :: fraction) rest
  whole : IsWhole whole
  point : point.is '.' = true
  fraction : IsWhole fraction
  maximal : ∀ x ∈ rest.head?, x.isDigit = false

instance (source : Bytes) (span : Span) (whole : List Glyph) (point : Glyph) (fraction rest : List Glyph) :
    Decidable (DecimalAt source span whole point fraction rest) :=
  decidable_of_iff (StartsPiece source span.offset ∧
      SpanReads source span (whole ++ point :: fraction) rest ∧ IsWhole whole ∧ point.is '.' = true ∧
      IsWhole fraction ∧ ∀ x ∈ rest.head?, x.isDigit = false)
    ⟨fun ⟨hstarts, hreads, hwhole, hpoint, hfraction, hmaximal⟩ =>
        ⟨hstarts, hreads, hwhole, hpoint, hfraction, hmaximal⟩,
      fun h => ⟨h.starts, h.reads, h.whole, h.point, h.fraction, h.maximal⟩⟩

/-- **Decimals are correctly rounded, or reported.** -/
structure ExactDecimals (source : Bytes) (s : Scan) : Prop where
  accepted : ∀ {span whole point fraction rest}, DecimalAt source span whole point fraction rest →
    FitsDecimal whole point fraction → ∃ x v, s.Accepts span .float (.float x) ∧
      x.negative = false ∧ x.IsNearest (decimalValue whole fraction) v
  rejected : ∀ {span whole point fraction rest}, DecimalAt source span whole point fraction rest →
    ¬ FitsDecimal whole point fraction →
      s.Rejects span (.unreadableFloat (spell (whole ++ point :: fraction))) ∧
        (Fault.unreadableFloat (spell (whole ++ point :: fraction))).message =
          ascii "Cannot parse float " ++ spell (whole ++ point :: fraction)
  /-- No float is infinite, not a number, or negative zero. -/
  literal : ∀ t ∈ s.tokens, t.kind = .float → ∃ whole point fraction rest x v,
    DecimalAt source t.span whole point fraction rest ∧ FitsDecimal whole point fraction ∧
      t.payload = .float x ∧ x.negative = false ∧ x.IsNearest (decimalValue whole fraction) v
  reflexive : s.tokens.isEqv s.tokens Token.equal = true

/-- The piece that a decimal is. -/
theorem DecimalAt.placed {source : Bytes} {span : Span} {whole fraction rest : List Glyph}
    {point : Glyph} (h : DecimalAt source span whole point fraction rest) :
    ∃ placed ∈ placedPieces source, placed.span = span ∧ placed.piece.form = .decimal ∧
      placed.piece.bytes = spell (whole ++ point :: fraction) := by
  obtain ⟨hstarts, hreads, ⟨hwhole, hdigits⟩, hpoint, ⟨hfraction, hmore⟩, hmaximal⟩ := h
  obtain ⟨g, body, rfl⟩ := List.exists_cons_of_ne_nil hwhole
  obtain ⟨first, more, rfl⟩ := List.exists_cons_of_ne_nil hfraction
  obtain ⟨hg, hbody⟩ := List.forall_mem_cons.mp hdigits
  obtain ⟨hfirst, hmore⟩ := List.forall_mem_cons.mp hmore
  have hmunched : Munched ⟨.decimal, g, body ++ point :: first :: more⟩ rest :=
    .decimal hg hbody hpoint hfirst hmore hmaximal
  obtain ⟨hmem, hspan⟩ := mem_placedPieces_of_munched hmunched hstarts hreads
  exact ⟨_, hmem, hspan, rfl, rfl⟩

/-- A piece that is a decimal is digits, a point and digits, with no digit behind it. -/
theorem Munched.exists_decimal {p : Piece} {follow : List Glyph} (h : Munched p follow)
    (hform : p.form = .decimal) : ∃ whole point fraction, p.lexeme = whole ++ point :: fraction ∧
      IsWhole whole ∧ point.is '.' = true ∧ IsWhole fraction ∧
        ∀ x ∈ follow.head?, x.isDigit = false := by
  obtain ⟨whole, point, fraction, heq, hwhole, hpoint, hfraction⟩ := h.isDecimal hform
  refine ⟨whole, point, fraction, heq, hwhole, hpoint, hfraction, ?_⟩
  cases h with
  | decimal _ _ _ _ _ hfollow => exact hfollow
  | _ => cases hform

/-- A number equals itself. -/
theorem Binary64.equal_self {x : Binary64} {v : ℚ} (h : x.value? = some v) : x.equal x = true := by
  unfold value? at h
  unfold equal
  split at h
  · rename_i units hmagnitude
    simp [hmagnitude]
  · cases h

/-- A token equals itself, unless its payload is a float that does not. -/
theorem Token.equal_self {t : Token} (h : ∀ x, t.payload = .float x → x.equal x = true) :
    t.equal t = true := by
  have hpayload : t.payload.equal t.payload = true := by
    cases hcase : t.payload with
    | float x => exact h x hcase
    | _ => simp [Payload.equal]
  simp [Token.equal, hpayload]

/-- Only floats carry a float. -/
theorem kind_of_float_payload {source : Bytes} {t : Token} (ht : t ∈ (scan source).tokens)
    {x : Binary64} (hpayload : t.payload = .float x) : t.kind = .float := by
  rcases mem_tokens_scan.mp ht with ⟨placed, -, htoken⟩ | rfl
  · have hreading := (Placed.token?_eq_some.mp htoken).1
    rw [hpayload] at hreading
    rcases Piece.reading_eq_token hreading with ⟨s, -, -, h⟩ | ⟨-, ⟨k, -, h⟩ | ⟨-, h⟩⟩ |
      ⟨-, -, n, -, h⟩ | ⟨-, hkind, -⟩ | ⟨-, -, h⟩
    · cases h
    · cases h
    · cases h
    · cases h
    · exact hkind
    · cases h
  · cases hpayload

/-- Lists of members that equal themselves equal themselves. -/
theorem isEqv_self {α : Type} {equal : α → α → Bool} {xs : List α}
    (h : ∀ x ∈ xs, equal x x = true) : xs.isEqv xs equal = true := by
  induction xs with
  | nil => rfl
  | cons x xs ih =>
    obtain ⟨hx, hxs⟩ := List.forall_mem_cons.mp h
    rw [List.isEqv, hx, ih hxs]
    rfl

/-- A float token goes back to a decimal of the text, and is the nearest double to it. -/
theorem exists_decimal_of_mem_tokens {source : Bytes} {t : Token} (ht : t ∈ (scan source).tokens)
    (hkind : t.kind = .float) : ∃ whole point fraction rest x v,
      DecimalAt source t.span whole point fraction rest ∧ FitsDecimal whole point fraction ∧
        t.payload = .float x ∧ x.negative = false ∧ x.IsNearest (decimalValue whole fraction) v := by
  obtain ⟨hstarts, p, rest, hreads, hmunched, hreading⟩ := munched_of_mem_tokens ht (by simp [hkind])
  rw [hkind] at hreading
  obtain ⟨hform, x, hvalue, hpayload⟩ := Piece.reading_eq_float hreading
  obtain ⟨whole, point, fraction, hlexeme, hwhole, hpoint, hfraction, hmaximal⟩ :=
    hmunched.exists_decimal hform
  rw [hlexeme] at hreads
  rw [Piece.bytes, hlexeme] at hvalue
  obtain ⟨haccepted, hrejected⟩ := float?_spell hreads.decoded hwhole hpoint hfraction
  -- it was read, so it can be
  have hfits : FitsDecimal whole point fraction := by
    by_contra hfits
    rw [hrejected hfits] at hvalue
    cases hvalue
  obtain ⟨y, v, hread, hnegative, hnearest⟩ := haccepted hfits
  obtain rfl : y = x := Option.some.inj (hread.symm.trans hvalue)
  exact ⟨whole, point, fraction, rest, y, v,
    ⟨hstarts, hreads, hwhole, hpoint, hfraction, hmaximal⟩, hfits, hpayload, hnegative, hnearest⟩

/-- No float makes a token differ from itself, so no token list does. -/
theorem isEqv_tokens (source : Bytes) :
    (scan source).tokens.isEqv (scan source).tokens Token.equal = true := by
  apply isEqv_self
  intro t ht
  apply Token.equal_self
  intro x hpayload
  obtain ⟨_, _, _, _, y, v, -, -, hy, -, hnearest⟩ :=
    exists_decimal_of_mem_tokens ht (kind_of_float_payload ht hpayload)
  obtain rfl : y = x := Payload.float.inj (hy.symm.trans hpayload)
  exact Binary64.equal_self hnearest.value

/-- **Scanning rounds decimals correctly**, or reports them. -/
theorem scan_decimals (source : Bytes) : ExactDecimals source (scan source) := by
  refine ⟨?_, ?_, fun t ht hkind => exists_decimal_of_mem_tokens ht hkind, isEqv_tokens source⟩
  · intro span whole point fraction rest hdecimal hfits
    obtain ⟨placed, hmem, rfl, hform, hbytes⟩ := hdecimal.placed
    obtain ⟨x, v, hread, hnegative, hnearest⟩ := (float?_spell hdecimal.reads.decoded hdecimal.whole
      hdecimal.point hdecimal.fraction).1 hfits
    have hreading : placed.piece.reading = .token .float (.float x) := by
      simp only [Piece.reading, hform, hbytes, hread]
    exact ⟨x, v, accepts_of_reading hmem hreading, hnegative, hnearest⟩
  · intro span whole point fraction rest hdecimal hfits
    obtain ⟨placed, hmem, rfl, hform, hbytes⟩ := hdecimal.placed
    have hread := (float?_spell hdecimal.reads.decoded hdecimal.whole hdecimal.point
      hdecimal.fraction).2 hfits
    have hreading : placed.piece.reading =
        .faulty (.unreadableFloat (spell (whole ++ point :: fraction))) := by
      simp only [Piece.reading, hform, hbytes, hread]
    exact ⟨rejects_of_reading hmem hreading, rfl⟩

/-- A tenth, which is no double, and then a decimal with its point in two bytes. -/
theorem scan_decimals_tenth :
    let tenth := ascii "0.1;"
    let long : Bytes := [0x31, 0xc0, 0xae, 0x35]
    DecimalAt (tenth ++ long) ⟨0, 3⟩ (decode (ascii "0")) ⟨Number.point, []⟩ (decode (ascii "1"))
        (decode (ascii ";" ++ long)) ∧
      (∃ x v, (scan (tenth ++ long)).Accepts ⟨0, 3⟩ .float (.float x) ∧ x.negative = false ∧
        x.IsNearest (1 / 10) v) ∧
      DecimalAt (tenth ++ long) ⟨4, 4⟩ (decode (ascii "1")) ⟨0xc0, [0xae]⟩ (decode (ascii "5")) [] ∧
      (scan (tenth ++ long)).Rejects ⟨4, 4⟩ (.unreadableFloat long) := by
  intro tenth long
  have hshort : DecimalAt (tenth ++ long) ⟨0, 3⟩ (decode (ascii "0")) ⟨Number.point, []⟩
      (decode (ascii "1")) (decode (ascii ";" ++ long)) := by decide +kernel
  have hlong : DecimalAt (tenth ++ long) ⟨4, 4⟩ (decode (ascii "1")) ⟨0xc0, [0xae]⟩
      (decode (ascii "5")) [] := by decide +kernel
  have hfits : FitsDecimal (decode (ascii "0")) ⟨Number.point, []⟩ (decode (ascii "1")) := by
    decide +kernel
  have hwide : ¬ FitsDecimal (decode (ascii "1")) ⟨0xc0, [0xae]⟩ (decode (ascii "5")) := by
    decide +kernel
  have hvalue : decimalValue (decode (ascii "0")) (decode (ascii "1")) = 1 / 10 := by decide +kernel
  have hspell : spell (decode (ascii "1") ++ ⟨0xc0, [0xae]⟩ :: decode (ascii "5")) = long := by
    decide +kernel
  have haccepted := (scan_decimals (tenth ++ long)).accepted hshort hfits
  obtain ⟨hrejected, -⟩ := (scan_decimals (tenth ++ long)).rejected hlong hwide
  rw [hvalue] at haccepted
  rw [hspell] at hrejected
  exact ⟨hshort, haccepted, hlong, hrejected⟩

end LoxLexer
