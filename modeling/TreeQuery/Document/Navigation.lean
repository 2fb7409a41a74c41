import TreeQuery.Document.Basic
import TreeQuery.Text.Quoted

/-! # Navigation — parents, ancestors, descendants, paths

Going up from a node, the numbers of its ancestors decrease, so the number of the node bounds the
length of the way. Going down, the descendants of a node are listed in document order: an element
comes before what hangs below it, and that before what hangs below its next sibling.
-/

namespace TreeQuery.Document

/-- The parent of a node. -/
def parent? (d : Document) (n : NodeId) : Option NodeId :=
  ((d.element? n).bind (·.parent)).filter d.contains

/-- The children of a node in document order. -/
def children (d : Document) (n : NodeId) : List NodeId :=
  match d.element? n with
  | some e => e.children.toList.filter d.contains
  | none => []

/-- Whether a node is the document root. -/
def isRoot (d : Document) (n : NodeId) : Bool :=
  (d.element? n).any fun e => e.parent.isNone

/-! ### Upwards -/

/-- The way up from a node, the node first, at most so many nodes long. -/
def climb (d : Document) : Nat → Option NodeId → List NodeId
  | _, none => []
  | 0, some _ => []
  | k + 1, some n => n :: d.climb k (d.parent? n)

/-- A node and its ancestors, from the node to the document root. -/
def lineage (d : Document) (n : NodeId) : List NodeId :=
  d.climb (n + 1) (some n)

/-- The ancestors of a node, the nearest first. -/
def ancestors (d : Document) (n : NodeId) : List NodeId :=
  d.climb n (d.parent? n)

theorem lineage_eq (d : Document) (n : NodeId) : d.lineage n = n :: d.ancestors n := rfl

/-- The first part of a list, up to and with a node if the node is on it. -/
def upTo (stop : NodeId) : List NodeId → List NodeId
  | [] => []
  | n :: ns => if n = stop then [n] else n :: upTo stop ns

/-! ### Downwards -/

/-- Lists nodes and what hangs below them in document order, at most so many in all. -/
def preorder (d : Document) : Nat → List NodeId → List NodeId
  | 0, _ => []
  | _ + 1, [] => []
  | k + 1, n :: pending => n :: d.preorder k (d.children n ++ pending)

/-- The nodes below a node in document order. -/
def descendants (d : Document) (n : NodeId) : List NodeId :=
  d.preorder d.size (d.children n)

/-! ### Paths -/

/-- The part of a path that stands for a node. -/
def segment (d : Document) (n : NodeId) : String :=
  ((d.element? n).map Element.segment).getD ""

/-- The path of a node: the parts for the nodes from below the document root to the node. -/
def path (d : Document) (n : NodeId) : String :=
  if d.isRoot n then rootTag
  else
    let below := (d.lineage n).takeWhile fun m => !d.isRoot m
    " > ".intercalate (below.reverse.map d.segment)

/-- A node in words: its number and its path. -/
def describe (d : Document) (n : NodeId) : String :=
  "NodeRef \x7b id: NodeId(" ++ toString n ++ "), path: " ++ Text.quoted (d.path n) ++ " \x7d"

end TreeQuery.Document

namespace TreeQuery

/-- A node of one of several documents, which are told apart by a number. Handles are the same if
they belong to one document and name one node of it. -/
structure Handle where
  document : Nat
  node : NodeId
deriving DecidableEq, Repr

end TreeQuery
