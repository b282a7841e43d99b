import LoxLexer.Token.Kind
import LoxLexer.Token.Payload
import LoxLexer.Token.Span

/-!
# `LoxLexer.Token.Basic` — tokens, their equality and their printed form

- `Token` — a kind, a place in the text, and a payload.
- `Token.equal` — equality part by part, floats compared as numbers.
- `Token.summary?` — the one-line form, such as `Ident(total) @4+5`. Four kinds print their payload, and
  there is no such line when it is not of the type they require.
-/

namespace LoxLexer

/-- A token and the place of its lexeme. -/
structure Token where
  kind : Kind
  span : Span
  payload : Payload
deriving DecidableEq, Repr

namespace Token

/-- Equality of kind, place and payload. -/
def equal (a b : Token) : Bool := a.kind == b.kind && a.span == b.span && a.payload.equal b.payload

/-- The payload as it is printed after the kind's name. An identifier and a string require text, a number
    its own type of number; every other kind prints none, whatever it carries. -/
def detail? (t : Token) : Option Bytes :=
  match t.kind with
  | .identifier => match t.payload with
    | .text name => some (ascii "(" ++ name ++ ascii ")")
    | _ => none
  | .string => match t.payload with
    | .text content => some (ascii "(\"" ++ content ++ ascii "\")")
    | _ => none
  | .integer => match t.payload with
    | .integer n => some (ascii "(" ++ Decimal.signed n ++ ascii ")")
    | _ => none
  | .float => match t.payload with
    | .float x => some (ascii "(" ++ x.text ++ ascii ")")
    | _ => none
  | _ => some []

/-- The token in one line: name, printed payload, offset and length. -/
def summary? (t : Token) : Option Bytes :=
  t.detail?.map fun detail =>
    t.kind.name ++ detail ++ ascii " @" ++ Decimal.numeral t.span.offset ++
      ascii "+" ++ Decimal.numeral t.span.length

end Token

end LoxLexer
