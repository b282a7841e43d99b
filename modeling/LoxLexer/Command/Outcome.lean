import LoxLexer.Command.Request
import LoxLexer.Diagnostic.Report
import LoxLexer.Source.Basic

/-!
# `LoxLexer.Command.Outcome` — what a run of the program does

A run yields an exit code and what goes to the two output streams. A file that scans without errors is
printed as one line per token, unless the run is quiet; with any error nothing of it is printed, and the
error stream holds the error blocks and a summary. Debug lines go around the error blocks and change
nothing else.

- `Outcome` — exit code, standard output, standard error.
- `wantsDebug` — whether debug lines are written, by the variable of the environment.
- `runScan` — a run on one path.
- `run` — a run on an argument list.
-/

namespace LoxLexer

/-- The exit code of a run and what it wrote. -/
structure Outcome where
  exitCode : Nat
  standardOutput : Bytes
  standardError : Bytes
deriving DecidableEq, Repr

/-- The program's name and version, as it prints them. -/
def versionText : Bytes := endLine (ascii "slox 0.1.0")

def usageText : Bytes :=
  endLine (ascii "slox - a statically typed lox front end") ++
    endLine (ascii "usage: slox [options] <input.slox>") ++
    endLine (ascii "  --help, -h          Show this help") ++
    endLine (ascii "  --version, -v       Show version") ++
    endLine (ascii "  --file, -f <file>   Input file to scan") ++
    endLine (ascii "  --quiet, -q         Scan only, do not print tokens")

/-- A line of the program about itself, on the error stream. -/
def notice (text : Bytes) : Bytes := endLine (ascii "slox: " ++ text)

/-- The lines of a token list. -/
def tokenDump (tokens : List Token) : Bytes := (tokens.filterMap Token.summary?).flatMap endLine

/-- How a failed scan is summed up. -/
def failureSummary (errors : Nat) : Bytes :=
  notice (ascii "scanning failed (" ++ Decimal.numeral errors ++
    ascii (if errors = 1 then " error)" else " errors)"))

/-- The debug line before a scan. -/
def debugBefore (path text : Bytes) : Bytes :=
  notice (ascii "scanning " ++ path ++ ascii " (" ++ Decimal.numeral text.length ++ ascii " bytes)")

/-- The debug line after a scan. -/
def debugAfter (result : Scan) : Bytes :=
  notice (Decimal.numeral result.tokens.length ++ ascii " tokens, " ++
    Decimal.numeral result.errors.length ++ ascii " errors")

/-- Debug lines are wanted wherever the variable for them is set, whatever its value. -/
def wantsDebug (value : Option Bytes) : Bool := value.isSome

/-- Runs on one path, given what can be read where. -/
def runScan (read : Bytes → Option Bytes) (debug : Bool) (path : Bytes) (quiet : Bool) : Outcome :=
  match readSource read path with
  | .error e => ⟨1, [], notice e.message⟩
  | .ok text =>
    let (result, report) := (Report.ofSource text).scan text
    let diagnostics :=
      (if debug then debugBefore path text else []) ++ report.text ++
        if debug then debugAfter result else []
    match result.status with
    | .failed => ⟨1, [], diagnostics ++ failureSummary result.errors.length⟩
    | .ok => ⟨0, if quiet then [] else tokenDump result.tokens, diagnostics⟩

/-- Does what a request asks for. -/
def Request.run (read : Bytes → Option Bytes) (debug : Bool) : Request → Outcome
  | .help => ⟨0, usageText, []⟩
  | .version => ⟨0, versionText, []⟩
  | .missingFile option => ⟨1, [], notice (option ++ ascii " requires a file argument")⟩
  | .unknownOption argument =>
    ⟨1, [], notice (ascii "unknown option '" ++ argument ++ ascii "'") ++ usageText⟩
  | .noInput => ⟨1, [], usageText⟩
  | .scan path quiet => runScan read debug path quiet

/-- Runs on an argument list, given what can be read where and whether debug lines are wanted. -/
def run (read : Bytes → Option Bytes) (debug : Bool) (arguments : List Bytes) : Outcome :=
  (Request.ofArguments arguments).run read debug

end LoxLexer
