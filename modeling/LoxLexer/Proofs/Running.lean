import LoxLexer.Proofs.Numerals
import LoxLexer.Proofs.Opening
import LoxLexer.Proofs.Reporting
import LoxLexer.Proofs.Typing
import Mathlib.Data.Set.List

/-!
# `LoxLexer.Proofs.Running` — what a run on a file prints

A run on a file reads it, brings its line endings to one kind and scans it. What it prints follows from the
scan alone: the tokens of a text without errors, one after another, and otherwise the blocks of the errors
and how many there are. No token is without its printed form, so printing cannot fail half-way, and it does
not begin where there are errors. Debug lines go around the blocks, and a quiet run leaves out the tokens;
neither changes anything else.

## Contents
- `exists_lines` — the tokens of a scan have a line each.
- `IsSummary`, `IsOpening`, `IsClosing` — the lines of the program about a scan, word for word, each with the
  numbers that it gives (`IsCount`).
- `Outcome.Shows`, `Outcome.AddsDebug` — the outcome of a run without debug lines, and what they add to it.
- `runScan_eq`, `run_file` — what a run on a file does in parts, and what it shows as a whole.
-/

namespace LoxLexer

/-! ## Printed tokens -/

/-- The tokens of a scan have a line each, and these lines are the dump. -/
theorem exists_lines (source : Bytes) : ∃ lines : List Bytes,
    (scan source).tokens.map Token.summary? = lines.map some ∧
      tokenDump (scan source).tokens = lines.flatMap endLine := by
  have hall : (scan source).tokens.map Token.summary? ∈ Set.range (List.map some) := by
    rw [Set.range_list_map]
    intro line hline
    obtain ⟨t, ht, rfl⟩ := List.mem_map.mp hline
    exact (wellTyped_of_mem_tokens ht).exists_summary?.imp fun _ => Eq.symm
  obtain ⟨lines, hlines⟩ := hall
  refine ⟨lines, hlines.symm, ?_⟩
  have hpicked : (scan source).tokens.filterMap Token.summary? = lines := by
    calc (scan source).tokens.filterMap Token.summary?
        = ((scan source).tokens.map Token.summary?).filterMap id := by rw [List.filterMap_map]; rfl
      _ = (lines.map some).filterMap id := by rw [hlines]
      _ = lines := by simp [List.filterMap_map]
  rw [tokenDump, hpicked]

/-! ## Lines of the program about itself -/

/-- **The digits are a number's**: they have its value, and no zero too many stands in front. -/
structure IsCount (digits : Bytes) (n : Nat) : Prop where
  digit : ∀ b ∈ digits, Decimal.isDigit b = true
  value : Decimal.value digits = n
  length : digits.length = Decimal.digitCount n

/-- **The line that sums up a run with errors**: how many blocks are above it. -/
structure IsSummary (line : Bytes) (blocks : Nat) : Prop where
  text : ∃ count, IsCount count blocks ∧ line =
    ascii "slox: scanning failed (" ++ count ++ ascii (if blocks = 1 then " error)" else " errors)")
  oneLine : newline ∉ line

/-- **The debug line in front of the diagnostics**: what is scanned, and how many bytes it has. It has no
    newlines but those of the path. -/
structure IsOpening (line path : Bytes) (bytes : Nat) : Prop where
  text : ∃ count, IsCount count bytes ∧
    line = ascii "slox: scanning " ++ path ++ ascii " (" ++ count ++ ascii " bytes)"
  oneLine : newline ∉ path → newline ∉ line

/-- **The debug line behind the diagnostics**: how many tokens and errors there are. -/
structure IsClosing (line : Bytes) (tokens errors : Nat) : Prop where
  text : ∃ tokenCount errorCount, IsCount tokenCount tokens ∧ IsCount errorCount errors ∧
    line = ascii "slox: " ++ tokenCount ++ ascii " tokens, " ++ errorCount ++ ascii " errors"
  oneLine : newline ∉ line

theorem isCount_numeral (n : Nat) : IsCount (Decimal.numeral n) n where
  digit _ := Decimal.isDigit_of_mem_numeral
  value := Decimal.value_numeral n
  length := Decimal.length_numeral n

theorem newline_not_mem_numeral (n : Nat) : newline ∉ Decimal.numeral n :=
  Decimal.not_mem_numeral (by decide) n

theorem exists_summary (errors : Nat) :
    ∃ line, IsSummary line errors ∧ failureSummary errors = line ++ [newline] := by
  have hopening : newline ∉ ascii "slox: scanning failed (" := by decide
  have hclosing : newline ∉ ascii (if errors = 1 then " error)" else " errors)") := by
    split <;> decide
  refine ⟨_, ⟨⟨_, isCount_numeral errors, rfl⟩, ?_⟩, rfl⟩
  simp [hopening, hclosing, newline_not_mem_numeral]

theorem exists_opening (path text : Bytes) :
    ∃ line, IsOpening line path text.length ∧ debugBefore path text = line ++ [newline] := by
  have hopening : newline ∉ ascii "slox: scanning " := by decide
  have hseparator : newline ∉ ascii " (" := by decide
  have hclosing : newline ∉ ascii " bytes)" := by decide
  refine ⟨_, ⟨⟨_, isCount_numeral text.length, rfl⟩, ?_⟩, rfl⟩
  intro hpath
  simp [hopening, hseparator, hclosing, hpath, newline_not_mem_numeral]

theorem exists_closing (found : Scan) : ∃ line,
    IsClosing line found.tokens.length found.errors.length ∧ debugAfter found = line ++ [newline] := by
  have hopening : newline ∉ ascii "slox: " := by decide
  have hseparator : newline ∉ ascii " tokens, " := by decide
  have hclosing : newline ∉ ascii " errors" := by decide
  refine ⟨_, ⟨⟨_, _, isCount_numeral _, isCount_numeral _, rfl⟩, ?_⟩, rfl⟩
  simp [hopening, hseparator, hclosing, newline_not_mem_numeral]

/-! ## Runs on a file -/

/-- The blocks of all errors of a text, quoting that text. -/
def errorBlocks (text : Bytes) : List Bytes :=
  (scan text).errors.map fun e => errorBlock text e.message e.span

theorem text_report (text : Bytes) :
    ((Report.ofSource text).scan text).2.text = (errorBlocks text).flatMap endLine := by
  rw [Report.text_scan, errorBlocks, List.flatMap_map]
  rfl

/-- **A run without debug lines on a file**, whose text, with its line endings unified, is the given one. -/
structure Outcome.Shows (o : Outcome) (text : Bytes) (quiet : Bool) : Prop where
  exitCode_iff : o.exitCode = 0 ↔ (scan text).errors = []
  /-- All tokens are printed, the closing one last, or none. -/
  printed : (scan text).errors = [] → ∃ lines : List Bytes,
    (scan text).tokens.map Token.summary? = lines.map some ∧
      (scan text).tokens.getLast? = some (endToken text.length) ∧
      o = ⟨0, if quiet then [] else lines.flatMap (· ++ [newline]), []⟩
  /-- All errors are printed and counted, and no token. -/
  failed : (scan text).errors ≠ [] → ∃ summary, IsSummary summary (errorBlocks text).length ∧
    o = ⟨1, [], (errorBlocks text).flatMap (· ++ [newline]) ++ (summary ++ [newline])⟩

/-- **Debug lines are added to an outcome**: one in front of the blocks, with the length of the text, and one
    behind them, with the numbers of tokens and of errors. The summary of errors, where there is one, stays
    behind them all. -/
structure Outcome.AddsDebug (plain debug : Outcome) (path text : Bytes) : Prop where
  exitCode : debug.exitCode = plain.exitCode
  standardOutput : debug.standardOutput = plain.standardOutput
  standardError : ∃ opening blocks closing summary, IsOpening opening path text.length ∧
    IsClosing closing (scan text).tokens.length (scan text).errors.length ∧
    blocks = (errorBlocks text).flatMap (· ++ [newline]) ∧
    ((scan text).errors = [] → summary = []) ∧
    ((scan text).errors ≠ [] →
      ∃ line, IsSummary line (errorBlocks text).length ∧ summary = line ++ [newline]) ∧
    plain.standardError = blocks ++ summary ∧
    debug.standardError = (opening ++ [newline]) ++ blocks ++ (closing ++ [newline]) ++ summary

section File

variable {read : Bytes → Option Bytes} {path text : Bytes}

/-- What a run on a file does, in parts. -/
theorem runScan_eq (hsource : readSource read path = .ok text) (debug quiet : Bool) :
    runScan read debug path quiet =
      { exitCode := if (scan text).errors = [] then 0 else 1
        standardOutput :=
          if (scan text).errors = [] ∧ quiet = false then tokenDump (scan text).tokens else []
        standardError := (if debug then debugBefore path text else []) ++
          (errorBlocks text).flatMap endLine ++ (if debug then debugAfter (scan text) else []) ++
          if (scan text).errors = [] then [] else failureSummary (errorBlocks text).length } := by
  have hcount : (errorBlocks text).length = (scan text).errors.length := List.length_map _
  have hfound : ((Report.ofSource text).scan text).1 = scan text := rfl
  dsimp only [runScan]
  rw [hsource]
  dsimp only
  rw [text_report, hcount, hfound]
  by_cases herrors : (scan text).errors = []
  · rw [(Scan.ok_iff.mpr herrors).1]
    cases quiet <;> simp [herrors]
  · rw [(Scan.failed_of_ne herrors).1]
    simp [herrors]

/-- Without debug lines, a run shows the text of its file. -/
theorem shows_runScan (hsource : readSource read path = .ok text) (quiet : Bool) :
    (runScan read false path quiet).Shows text quiet := by
  rw [runScan_eq hsource]
  constructor
  · by_cases herrors : (scan text).errors = [] <;> simp [herrors]
  · intro hnone
    obtain ⟨lines, hlines, hdump⟩ := exists_lines text
    refine ⟨lines, hlines, ?_, ?_⟩
    · rw [tokens_scan, List.getLast?_append]
      rfl
    · have hblocks : errorBlocks text = [] := by rw [errorBlocks, hnone]; rfl
      simp only [hnone, hblocks, hdump]
      cases quiet <;> rfl
  · intro hsome
    obtain ⟨summary, hsummary, htext⟩ := exists_summary (errorBlocks text).length
    refine ⟨summary, hsummary, ?_⟩
    simp only [hsome, htext, Bool.false_eq_true, if_false, false_and, List.nil_append, List.append_nil]
    rfl

/-- Debug lines are added to what a run does without them. -/
theorem addsDebug_runScan (hsource : readSource read path = .ok text) (quiet : Bool) :
    (runScan read false path quiet).AddsDebug (runScan read true path quiet) path text := by
  rw [runScan_eq hsource, runScan_eq hsource]
  refine ⟨rfl, rfl, ?_⟩
  obtain ⟨opening, hopening, hbefore⟩ := exists_opening path text
  obtain ⟨closing, hclosing, hafter⟩ := exists_closing (scan text)
  obtain ⟨line, hline, hsummary⟩ := exists_summary (errorBlocks text).length
  refine ⟨opening, _, closing, if (scan text).errors = [] then [] else line ++ [newline], hopening,
    hclosing, rfl, fun hnone => if_pos hnone, fun hsome => ⟨line, hline, if_neg hsome⟩, ?_, ?_⟩
  · simp only [hsummary, Bool.false_eq_true, if_false, List.nil_append, List.append_nil]
    rfl
  · simp only [hsummary, hbefore, hafter, if_true]
    rfl

theorem run_eq {arguments : List Bytes} {quiet : Bool}
    (hrequest : Request.ofArguments arguments = .scan path quiet) (debug : Bool) :
    run read debug arguments = runScan read debug path quiet := by
  rw [run, hrequest]
  rfl

/-- **A run on a file shows what scanning finds**, whatever the file holds and however the arguments select
    it. Debug lines add to the error stream and change nothing else, whatever the value of their variable,
    and a quiet run differs in the standard output alone. -/
theorem run_file {raw : Bytes} (hread : read path = some raw) {arguments : List Bytes} {quiet : Bool}
    (hrequest : Request.ofArguments arguments = .scan path quiet) :
    (run read (wantsDebug none) arguments).Shows (unifyNewlines raw) quiet ∧
      (∀ value, (run read (wantsDebug none) arguments).AddsDebug
        (run read (wantsDebug (some value)) arguments) path (unifyNewlines raw)) ∧
      ∀ others otherQuiet, Request.ofArguments others = .scan path otherQuiet → ∀ value,
        (run read (wantsDebug value) others).exitCode = (run read (wantsDebug value) arguments).exitCode ∧
        (run read (wantsDebug value) others).standardError =
          (run read (wantsDebug value) arguments).standardError := by
  have hsource : readSource read path = .ok (unifyNewlines raw) := by rw [readSource, hread]
  refine ⟨?_, ?_, ?_⟩
  · rw [run_eq hrequest]
    exact shows_runScan hsource quiet
  · intro value
    rw [run_eq hrequest, run_eq hrequest]
    exact addsDebug_runScan hsource quiet
  · intro others otherQuiet hothers value
    rw [run_eq hothers, run_eq hrequest, runScan_eq hsource, runScan_eq hsource]
    exact ⟨rfl, rfl⟩

end File

/-- A quiet run in a directory of two files, on the one with a number, a line ending of two bytes and a stray
    character. -/
theorem run_file_quietFailure :
    let raw : Bytes := [0x31, 0x0d, 0x0a, 0x40]
    let read := Directory.read? ⟨[(ascii "other.slox", []), (ascii "in.slox", raw)], []⟩
    let arguments := [ascii "-q", ascii "--file", ascii "in.slox"]
    read (ascii "in.slox") = some raw ∧
      Request.ofArguments arguments = .scan (ascii "in.slox") true ∧
      (run read (wantsDebug none) arguments).Shows [0x31, 0x0a, 0x40] true ∧
      (run read (wantsDebug none) arguments).AddsDebug (run read (wantsDebug (some [])) arguments)
        (ascii "in.slox") [0x31, 0x0a, 0x40] := by
  intro raw read arguments
  have hname : Directory.IsName (ascii "in.slox") := ⟨by decide, by decide, by decide, by decide⟩
  have hread : read (ascii "in.slox") = some raw := Directory.read?_of_isName hname (by decide) (by decide)
  have hrequest : Request.ofArguments arguments = .scan (ascii "in.slox") true := by decide
  obtain ⟨hshows, hdebug, -⟩ := run_file hread hrequest
  exact ⟨hread, hrequest, hshows, hdebug []⟩

end LoxLexer
