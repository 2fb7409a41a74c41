import TreeQuery.Document.Navigation
import TreeQuery.Journal
import TreeQuery.Selector.Token

/-! # Search — the nodes that a query asks for

A query has a key and constraints. A node answers it if the node satisfies the key and its ancestors
satisfy the constraints: every constraint is satisfied by an ancestor of its own, in the order of
the selector, and ancestors that the selector does not name are skipped. A search starts from the
nodes that the key produces below some root; the ancestors that satisfy the constraints may lie
above that root.
-/

namespace TreeQuery

/-! ### One criterion -/

namespace Criterion

/-- Whether an element has what a criterion asks for. -/
def isMetBy (c : Criterion) (e : Element) : Bool :=
  match c with
  | .nameAndId tag key => e.id == some key && e.hasTag tag
  | .id key => e.id == some key
  | .name tag => e.hasTag tag
  | .className token => e.hasClass token
  | .nameAndClass tag token => e.hasClass token && e.hasTag tag

end Criterion

namespace Document

/-- Whether a node satisfies a criterion. -/
def satisfies (d : Document) (c : Criterion) (n : NodeId) : Bool :=
  (d.element? n).any c.isMetBy

/-- Whether the tag of a node is the given name, letter case aside. -/
def hasTag (d : Document) (name : String) (n : NodeId) : Bool :=
  (d.element? n).any (·.hasTag name)

/-- Whether a node has a class. -/
def hasClass (d : Document) (token : String) (n : NodeId) : Bool :=
  (d.element? n).any (·.hasClass token)

/-- Whether a node has an id. -/
def hasId (d : Document) (key : String) (n : NodeId) : Bool :=
  (d.element? n).any fun e => e.id == some key

/-- The first node below a root that has an id. -/
def findById? (d : Document) (root : NodeId) (key : String) : Option NodeId :=
  (d.descendants root).find? (d.hasId key)

/-- The nodes below a root that have a tag. -/
def findByTag (d : Document) (root : NodeId) (name : String) : List NodeId :=
  (d.descendants root).filter (d.hasTag name)

/-- The nodes below a root that have a class. -/
def findByClass (d : Document) (root : NodeId) (token : String) : List NodeId :=
  (d.descendants root).filter (d.hasClass token)

/-- The nodes below a root that a criterion produces. An id belongs to one node, so only the first
node that carries it is looked at. -/
def find (d : Document) (c : Criterion) (root : NodeId) : List NodeId :=
  match c with
  | .nameAndId tag key => (d.findById? root key).toList.filter (d.hasTag tag)
  | .id key => (d.findById? root key).toList
  | .name tag => d.findByTag root tag
  | .className token => d.findByClass root token
  | .nameAndClass tag token => (d.findByClass root token).filter (d.hasTag tag)

/-- Whether criteria are satisfied, in order, by nodes of a list, in order. A criterion takes the
first node that satisfies it, and a node serves at most one criterion. -/
def satisfiesInOrder (d : Document) : List Criterion → List NodeId → Bool
  | [], _ => true
  | _ :: _, [] => false
  | c :: cs, n :: ns =>
    if d.satisfies c n then d.satisfiesInOrder cs ns else d.satisfiesInOrder (c :: cs) ns

end Document

/-! ### Queries -/

/-- What is looked for: the key, and the constraints on its ancestors, the farthest first. -/
structure Query where
  key : Criterion
  constraints : List Criterion
deriving DecidableEq, Repr

namespace Query

/-- The query that some tokens spell, if there are any. -/
def ofTokens? (tokens : List Token) : Option Query :=
  (Token.splitKey? tokens).map fun (key, ancestors) =>
    ⟨key.criterion, ancestors.map Token.criterion⟩

/-- Whether the way up from a node, the node included, satisfies the constraints. -/
def holdsFrom (q : Query) (d : Document) (start : Option NodeId) : Bool :=
  match start with
  | none => q.constraints.isEmpty
  | some n => d.satisfiesInOrder q.constraints.reverse (d.lineage n)

/-- Whether a node answers the query. -/
def isAnsweredBy (q : Query) (d : Document) (n : NodeId) : Bool :=
  d.satisfies q.key n && q.holdsFrom d (d.parent? n)

/-- The nodes that the key produces; without a root there are none. -/
def candidates (q : Query) (d : Document) (root : Option NodeId) : List NodeId :=
  match root with
  | none => []
  | some r => d.find q.key r

/-- Whether a candidate is an answer. Without constraints the key is tested on the node itself, with
constraints only the ancestors are looked at. -/
def accepts (q : Query) (d : Document) (n : NodeId) : Bool :=
  if q.constraints.isEmpty then d.satisfies q.key n else q.holdsFrom d (d.parent? n)

/-- The answers below a root, in document order. -/
def answers (q : Query) (d : Document) (root : Option NodeId) : List NodeId :=
  (q.candidates d root).filter (q.accepts d)

/-- The answers below a root, with a report on the candidates. -/
def search {ε : Type} (q : Query) (d : Document) (root : Option NodeId) :
    Journal ε (List NodeId) := do
  Journal.note (.candidates q.key (q.candidates d root).length q.constraints.length)
  pure (q.answers d root)

/-- The first node on the way up from a node that answers the query, not looking beyond a root. -/
def closest? (q : Query) (d : Document) (n root : NodeId) : Option NodeId :=
  (Document.upTo root (d.lineage n)).find? (q.isAnsweredBy d)

end Query

end TreeQuery
