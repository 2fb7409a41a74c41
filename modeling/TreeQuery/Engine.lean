import TreeQuery.Search
import TreeQuery.Selector.Tokenizing

/-! # Engines — selectors evaluated on documents

An engine reads selectors under its grammar, strictly or leniently, and evaluates them on a
document. A selector without simple selectors asks for nothing.
-/

namespace TreeQuery

/-- A grammar and the mode in which selectors are read under it. -/
structure Engine where
  grammar : Grammar
  mode : Selector.Mode

namespace Engine

/-- Why an engine has no answer. -/
inductive Fault where
  /-- There is no grammar. -/
  | grammar (fault : Grammar.Fault)
  /-- The selector cannot be read. -/
  | selector (fault : Selector.Fault)
deriving DecidableEq, Repr

namespace Fault

/-- A fault of an engine in words. -/
def message : Fault → String
  | .grammar fault => "grammar configuration error: " ++ fault.message
  | .selector fault => fault.message

/-- Whether a selector holds a simple selector that cannot be looked for. -/
def isUnsupported : Fault → Bool
  | .selector (.unsupported _) => true
  | _ => false

/-- Whether a selector holds misplaced text. -/
def isMalformed : Fault → Bool
  | .selector (.malformed _) => true
  | _ => false

/-- The messages of a fault and of what has caused it. -/
def chain : Fault → List String
  | .grammar fault => [(Fault.grammar fault).message, fault.message]
  | .selector fault => [fault.message]

end Fault

/-- The engine with the standard grammar. -/
def standard (mode : Selector.Mode) : Journal Fault Engine := do
  let grammar ← Grammar.standard.mapFault .grammar
  Journal.note (.engineReady mode)
  pure ⟨grammar, mode⟩

/-- The engine with the grammar of some templates. -/
def ofTemplates (room : Pattern.Room) (t : Templates) (mode : Selector.Mode) :
    Journal Fault Engine := do
  let grammar ← (Grammar.build room t).mapFault .grammar
  pure ⟨grammar, mode⟩

/-- The tokens of a selector. -/
def tokenize (e : Engine) (selector : String) : Journal Fault (List Token) :=
  (Selector.tokenize e.grammar e.mode selector).mapFault .selector

/-- The nodes below a root that a selector asks for, in document order. -/
def search (e : Engine) (d : Document) (selector : String) (root : Option NodeId) :
    Journal Fault (List NodeId) := do
  let tokens ← e.tokenize selector
  let found ←
    match Query.ofTokens? tokens with
    | none => pure []
    | some q => q.search d root
  Journal.note (.matched selector found.length)
  pure found

/-- The first node on the way up from a node to a root that a selector asks for. -/
def closest? (e : Engine) (d : Document) (n : NodeId) (selector : String) (root : NodeId) :
    Journal Fault (Option NodeId) := do
  let tokens ← e.tokenize selector
  pure ((Query.ofTokens? tokens).bind fun q => q.closest? d n root)

end Engine

/-! ### Selections -/

/-- The result of a search, from which another can start. -/
structure Selection where
  selector : String
  nodes : List NodeId
deriving DecidableEq, Repr

namespace Selection

/-- The first node of a selection. -/
def first? (s : Selection) : Option NodeId := s.nodes.head?

/-- Whether nothing has been found. -/
def isEmpty (s : Selection) : Bool := s.nodes.isEmpty

/-- The number of nodes found. -/
def size (s : Selection) : Nat := s.nodes.length

end Selection

namespace Engine

/-- A search whose result can be searched further. -/
def select (e : Engine) (d : Document) (selector : String) (root : Option NodeId) :
    Journal Fault Selection := do
  let nodes ← e.search d selector root
  pure ⟨selector, nodes⟩

/-- Searches below the first node of a selection. -/
def find (e : Engine) (d : Document) (s : Selection) (selector : String) :
    Journal Fault Selection :=
  e.select d selector s.first?

/-- Evaluates selectors one after another, each below the first node of the last selection; the
first, and every one until a selection has been made, below the given root. A selector that fails
leaves the last selection in force. -/
def selections (e : Engine) (d : Document) (root : Option NodeId) :
    Option Selection → List String → List (Journal Fault Selection)
  | _, [] => []
  | last, selector :: selectors =>
    let result :=
      match last with
      | none => e.select d selector root
      | some s => e.find d s selector
    let next :=
      match result.outcome with
      | .ok s => some s
      | .error _ => last
    result :: e.selections d root next selectors

end Engine

end TreeQuery
