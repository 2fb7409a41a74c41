import TreeQuery.Rule
import TreeQuery.Template.Basic
import TreeQuery.Pattern.Basic

/-! # Faults of a grammar

A grammar is given by templates, so what can go wrong is a template that cannot be read, a
reference to nothing or to itself, a rule without a template, and a joined pattern that is none.
-/

namespace TreeQuery.Grammar

/-- Why templates do not make a grammar. -/
inductive Fault where
  /-- A template holds a faulty reference. -/
  | reference (fault : Template.Fault)
  /-- The template of an owner refers to a name that nothing defines. -/
  | unknownName (name owner : String)
  /-- A definition refers to itself through its own expansion. -/
  | cycle (name : String)
  /-- A rule has no template. -/
  | missingRule (rule : Rule)
  /-- The joined text of the rules is not a pattern. -/
  | pattern (fault : Pattern.Fault)
deriving DecidableEq, Repr

/-- A fault of a grammar in words. -/
def Fault.message : Fault → String
  | .reference fault => fault.message
  | .unknownName name owner =>
    "unknown macro \x60" ++ name ++ "\x60 referenced by template \x60" ++ owner ++ "\x60"
  | .cycle name => "macro \x60" ++ name ++ "\x60 refers to itself through its own expansion"
  | .missingRule rule => "missing template for rule \x60" ++ rule.label ++ "\x60"
  | .pattern fault => "invalid pattern: " ++ fault.message

end TreeQuery.Grammar
