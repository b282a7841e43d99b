/-!
# `LoxLexer.Token.Spelling` — reading a finite vocabulary by its spellings

A finite set of words is listed once, and each word has a spelling of its own. Searching the list for a
spelling is then the inverse of writing it.
-/

namespace LoxLexer

/-- The member of `all` with the given spelling. -/
def lookUp {Word Spelling : Type} [DecidableEq Spelling] (all : List Word)
    (spelling : Word → Spelling) (spelled : Spelling) : Option Word :=
  all.find? fun word => spelling word = spelled

/-- In a complete list with distinct spellings, a word is found exactly under its own spelling. -/
theorem lookUp_eq_some_iff {Word Spelling : Type} [DecidableEq Spelling] {all : List Word}
    {spelling : Word → Spelling} (complete : ∀ word, word ∈ all)
    (injective : ∀ v w, spelling v = spelling w → v = w) {spelled : Spelling} {word : Word} :
    lookUp all spelling spelled = some word ↔ spelling word = spelled := by
  constructor
  · intro h
    simpa using List.find?_some h
  · intro h
    have hfound : (lookUp all spelling spelled).isSome := by
      rw [lookUp, List.find?_isSome]
      exact ⟨word, complete word, by simpa using h⟩
    obtain ⟨other, hother⟩ := Option.isSome_iff_exists.mp hfound
    have hspelled : spelling other = spelled := by simpa using List.find?_some hother
    rw [hother, injective other word (hspelled.trans h.symm)]

end LoxLexer
