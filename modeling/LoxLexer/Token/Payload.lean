import LoxLexer.Binary64

/-!
# `LoxLexer.Token.Payload` — the value a token carries

A payload is typed on its own, apart from the token's kind: nothing here stops a keyword from carrying a
number. What a kind requires is stated where tokens are printed and where they are made.
-/

namespace LoxLexer

/-- The value carried by a token. -/
inductive Payload where
  | empty
  | text (bytes : Bytes)
  | integer (value : Int)
  | float (value : Binary64)
deriving DecidableEq, Repr

/-- Equality of payloads: of one type, with equal values, and numeric equality for floats. -/
def Payload.equal : Payload → Payload → Bool
  | .empty, .empty => true
  | .text s, .text t => s == t
  | .integer m, .integer n => m == n
  | .float x, .float y => x.equal y
  | _, _ => false

end LoxLexer
