import TreeQuery.Rule

/-! # Faults of a selector

A selector is read into simple selectors. It fails when one of them cannot be looked for in a tree,
or, if every byte must be accounted for, when something between two of them is not a single space.
-/

namespace TreeQuery.Selector

/-- How strict the reading of selectors is. -/
inductive Mode where
  /-- What does not fit is passed over with a warning. -/
  | lenient
  /-- What does not fit makes the selector malformed. -/
  | strict
deriving DecidableEq, Repr

/-- The name of a mode. -/
def Mode.label : Mode → String
  | .lenient => "Lenient"
  | .strict => "Strict"

/-- Text in a selector that belongs to no simple selector, or to one that touches its neighbour. -/
structure Malformed where
  /-- The offset at which the text stands in the normal form of the selector. -/
  position : Nat
  /-- The text. -/
  fragment : String
deriving DecidableEq, Repr

/-- Misplaced text in words. -/
def Malformed.message (m : Malformed) : String :=
  "unexpected \x60" ++ m.fragment ++ "\x60 in selector at byte " ++ toString m.position ++
    " (zero-based)"

/-- A simple selector of a rule that cannot be looked for in a tree. -/
structure Unsupported where
  text : String
  rule : Rule
deriving DecidableEq, Repr

/-- An unsupported simple selector in words. -/
def Unsupported.message (u : Unsupported) : String :=
  "unsupported selector \x60" ++ u.text ++ "\x60 (" ++ u.rule.label ++ ")"

/-- Why a selector cannot be read. -/
inductive Fault where
  | unsupported (u : Unsupported)
  | malformed (m : Malformed)
deriving DecidableEq, Repr

/-- A fault of a selector in words. -/
def Fault.message : Fault → String
  | .unsupported u => u.message
  | .malformed m => m.message

end TreeQuery.Selector
