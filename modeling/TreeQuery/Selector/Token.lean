import TreeQuery.Criterion
import TreeQuery.Selector.Fault

/-! # Tokens — the simple selectors of a selector

A selector is a list of simple selectors. The last one, the *key*, says which elements are looked
for; the others constrain the ancestors of such an element, the farthest first.
-/

namespace TreeQuery

/-- A simple selector: its text and its kind. -/
structure Token where
  text : String
  kind : Kind
deriving DecidableEq, Repr

namespace Token

/-- What the simple selector asks of an element. -/
def criterion (t : Token) : Criterion := Criterion.parse t.kind t.text

/-- A token in words. -/
def describe (t : Token) : String := "identity: " ++ t.text ++ ", finder: " ++ t.kind.label

/-- The key of a list of tokens and the tokens before it. -/
def splitKey? (tokens : List Token) : Option (Token × List Token) :=
  tokens.getLast?.map fun key => (key, tokens.dropLast)

theorem splitKey?_concat (tokens : List Token) (key : Token) :
    splitKey? (tokens ++ [key]) = some (key, tokens) := by
  simp [splitKey?]

end Token

end TreeQuery
