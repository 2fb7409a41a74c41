import TreeQuery.Criterion
import TreeQuery.Selector.Fault

/-! # Events — what a computation may report while it runs

Building a grammar, reading a selector and searching a tree report what they do. Every event has a
level, which says how much it matters, and a message.
-/

namespace TreeQuery

/-- How much an event matters. -/
inductive Level where
  | error
  | warn
  | info
  | debug
  | trace
deriving DecidableEq, Repr

namespace Level

/-- The rank of a level: the smaller, the more it matters. -/
def rank : Level → Nat
  | .error => 0
  | .warn => 1
  | .info => 2
  | .debug => 3
  | .trace => 4

/-- Whether an event of this level is shown to a reader who asks for another level: it must matter
at least as much. -/
def isShownAt (level asked : Level) : Bool := level.rank ≤ asked.rank

/-- The name of a level in small letters. -/
def label : Level → String
  | .error => "error"
  | .warn => "warn"
  | .info => "info"
  | .debug => "debug"
  | .trace => "trace"

/-- The name of a level as the name of a setting. -/
def title : Level → String
  | .error => "Error"
  | .warn => "Warn"
  | .info => "Info"
  | .debug => "Debug"
  | .trace => "Trace"

end Level

/-- What is worth reporting. -/
inductive Event where
  /-- A named fragment has been expanded. -/
  | definitionExpanded (name text : String)
  /-- The template of a rule has been expanded. -/
  | ruleExpanded (rule : Rule) (text : String)
  /-- The rules have been joined into a scanner. -/
  | scannerCompiled (rules bytes : Nat)
  /-- An engine with the standard grammar is ready. -/
  | engineReady (mode : Selector.Mode)
  /-- Misplaced text in a selector is passed over. -/
  | ignored (fault : Selector.Malformed)
  /-- A selector has been read. -/
  | tokenized (normalized : String) (tokens : Nat)
  /-- The key of a selector has produced candidates. -/
  | candidates (key : Criterion) (found constraints : Nat)
  /-- A search has ended. -/
  | matched (selector : String) (found : Nat)
deriving DecidableEq, Repr

namespace Event

/-- How much an event matters. -/
def level : Event → Level
  | .definitionExpanded .. => .trace
  | .ruleExpanded .. => .trace
  | .scannerCompiled .. => .debug
  | .engineReady _ => .debug
  | .ignored _ => .warn
  | .tokenized .. => .debug
  | .candidates .. => .trace
  | .matched .. => .debug

/-- An event in words. -/
def message : Event → String
  | .definitionExpanded name text =>
    "expanded macro \x60" ++ name ++ "\x60 to \x60" ++ text ++ "\x60"
  | .ruleExpanded rule text =>
    "rule \x60" ++ rule.label ++ "\x60 expands to \x60" ++ text ++ "\x60"
  | .scannerCompiled rules bytes =>
    "compiled selector scanner with " ++ toString rules ++ " rules (" ++ toString bytes ++ " bytes)"
  | .engineReady mode => "selector engine ready (" ++ mode.label ++ " tokenizing)"
  | .ignored fault => "ignoring " ++ fault.message
  | .tokenized normalized tokens =>
    "tokenized \x60" ++ normalized ++ "\x60 into " ++ toString tokens ++ " tokens"
  | .candidates key found constraints =>
    "key " ++ key.describe ++ " produced " ++ toString found ++ " candidates, " ++
      toString constraints ++ " ancestor constraints"
  | .matched selector found =>
    "\x60" ++ selector ++ "\x60 matched " ++ toString found ++ " nodes"

/-- The misplaced text that an event warns of, if it is a warning. -/
def warning? : Event → Option Selector.Malformed
  | .ignored fault => some fault
  | _ => none

end Event

end TreeQuery
