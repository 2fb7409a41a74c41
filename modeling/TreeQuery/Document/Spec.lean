import TreeQuery.Document.Basic

/-! # Element specifications — whole subtrees to append

A specification describes an element with everything below it. Appending it creates its elements in
pre-order, so a parent always has a smaller number than its children.
-/

namespace TreeQuery

/-- An element and everything below it, before it is part of a document. -/
structure ElementSpec where
  tag : String
  id : Option String
  classList : Option String
  text : Option String
  children : List ElementSpec
deriving Repr

namespace Document

mutual

/-- Adds a subtree as the last one below a node that the document has. -/
def graft (d : Document) (parent : NodeId) : ElementSpec → Document
  | ⟨tag, id, classList, text, children⟩ =>
    let node := d.size
    let d := d.push parent tag
    let d := d.modify node fun e => { e with id, classList := classList.getD "", text }
    d.graftAll node children

/-- Adds several subtrees below a node, one after another. -/
def graftAll (d : Document) (parent : NodeId) : List ElementSpec → Document
  | [] => d
  | spec :: specs => (d.graft parent spec).graftAll parent specs

end

/-- Appends a subtree below a node and tells the number of its topmost element. -/
def appendSpec? (d : Document) (parent : NodeId) (spec : ElementSpec) :
    Option (NodeId × Document) :=
  if d.contains parent then some (d.size, d.graft parent spec) else none

/-- The document whose root has the given subtree below it. -/
def ofSpec (spec : ElementSpec) : Document :=
  empty.graft root spec

end Document

end TreeQuery
