import TreeQuery.Grammar.Fault
import TreeQuery.Journal
import TreeQuery.Pattern.Source
import TreeQuery.Pattern.Occurrence
import TreeQuery.Text.Offset

/-! # Scanners — the rules of a grammar as one pattern

The fragments of the rules are joined, in order, into one choice, each in a group named after its
rule. Where the joined pattern is found, the first rule whose group has taken part is the rule of
the hit, and the hit is what that group has read. The fragments are joined as text, so a fragment
may close its group and go on outside of it; an occurrence in which no group of a rule takes part
is passed over.
-/

namespace TreeQuery

/-- A simple selector found in a text. -/
structure Hit where
  text : String
  /-- The offset at which it starts. -/
  start : Nat
  /-- The offset at which it ends. -/
  stop : Nat
  rule : Rule
deriving DecidableEq, Repr

/-- The rules of a grammar joined into one pattern. -/
structure Scanner where
  /-- The text of the joined pattern. -/
  source : String
  pattern : Pattern
  /-- The rules in the order of their fragments. -/
  rules : List Rule
deriving DecidableEq, Repr

namespace Scanner

/-- A fragment in the group of its rule. -/
def wrap (fragment : Rule × String) : String :=
  "(?P<" ++ fragment.1.groupName ++ ">" ++ fragment.2 ++ ")"

/-- The fragments joined into the text of one pattern. -/
def join (fragments : List (Rule × String)) : String :=
  "|".intercalate (fragments.map wrap)

/-- Joins fragments into a scanner. -/
def ofFragments (room : Pattern.Room) (fragments : List (Rule × String)) :
    Journal Grammar.Fault Scanner := do
  let source := join fragments
  let pattern ← .ofExcept ((Pattern.compile room source).mapError .pattern)
  Journal.note (.scannerCompiled fragments.length (Text.byteLength source.toList))
  pure ⟨source, pattern, fragments.map (·.1)⟩

/-- What an occurrence of the joined pattern says about the text, if a group of a rule has taken
part in it. -/
def hit? (rules : List Rule) (text : List Char) (o : Pattern.Occurrence) : Option Hit :=
  rules.findSome? fun rule =>
    (o.reading.mark? rule.groupName).map fun m =>
      ⟨String.ofList (Text.slice text m.start m.stop), m.start, m.stop, rule⟩

/-- The hits in a text, from left to right. -/
def scan (s : Scanner) (text : String) : List Hit :=
  (s.pattern.occurrences text.toList).filterMap (hit? s.rules text.toList)

end Scanner

end TreeQuery
