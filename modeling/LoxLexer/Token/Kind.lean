import LoxLexer.Token.Keyword
import LoxLexer.Token.Symbol

/-!
# `LoxLexer.Token.Kind` — what a token can be

Kinds are numbered from 0 in the order of `Kind.all`: the symbols, the four kinds with a payload, the
keywords, and the end of the input. A number past the last kind has the name `Unknown`. Names tell kinds
apart: `ofName?_eq_some_iff` reads them back, and `ofName?_nameOfNumber` goes from a number to its kind.
-/

namespace LoxLexer

/-- The kind of a token. -/
inductive Kind where
  | symbol (s : Symbol)
  | identifier
  | string
  | integer
  | float
  | keyword (k : Keyword)
  | endOfInput
deriving DecidableEq, Repr

namespace Kind

/-- Every kind, in the order of their numbers. -/
def all : List Kind :=
  Symbol.all.map symbol ++ [identifier, string, integer, float] ++ Keyword.all.map keyword ++
    [endOfInput]

/-- The name in a token dump. -/
def name : Kind → Bytes
  | symbol s => s.name
  | identifier => ascii "Ident"
  | string => ascii "StringLiteral"
  | integer => ascii "IntLiteral"
  | float => ascii "FloatLiteral"
  | keyword k => k.name
  | endOfInput => ascii "Eof"

/-- The kind with the given name. -/
def ofName? (name : Bytes) : Option Kind := lookUp all Kind.name name

/-- The name of the kind with the given number. -/
def nameOfNumber (number : Nat) : Bytes := (all[number]?.map name).getD (ascii "Unknown")

/-- The kind of a word: a keyword if its bytes are reserved, and otherwise an identifier. -/
def ofWord (word : Bytes) : Kind :=
  match Keyword.ofBytes? word with
  | some k => .keyword k
  | none => .identifier

theorem mem_all (kind : Kind) : kind ∈ all := by
  cases kind with
  | symbol s => simp [all, Symbol.mem_all s]
  | keyword k => simp [all, Keyword.mem_all k]
  | _ => simp [all]

theorem name_injective (j k : Kind) (h : j.name = k.name) : j = k := by
  have hall : ∀ j ∈ all, ∀ k ∈ all, j.name = k.name → j = k := by decide +kernel
  exact hall j (mem_all j) k (mem_all k) h

/-- A kind is found under its own name and under no other. -/
theorem ofName?_eq_some_iff {name : Bytes} {kind : Kind} :
    ofName? name = some kind ↔ kind.name = name :=
  lookUp_eq_some_iff mem_all name_injective

/-- **A number has the name of its kind**, and a number past the last kind has a name that is no kind's. -/
theorem ofName?_nameOfNumber (number : Nat) : ofName? (nameOfNumber number) = all[number]? := by
  unfold nameOfNumber
  cases all[number]? with
  | none =>
    show ofName? (ascii "Unknown") = none
    decide +kernel
  | some kind => exact ofName?_eq_some_iff.mpr rfl

end Kind

end LoxLexer
