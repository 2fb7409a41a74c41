import TreeQuery.Text.Blank

/-! # Documents — a table of elements that grows

A document is a table of elements, numbered in the order of their creation. Node 0 is the document
root, which exists from the start and has no parent. Every other element hangs below the node that
it was appended to. An element knows its parent and its children by number; nothing is ever
removed. An operation on a node that the document does not have is refused.
-/

namespace TreeQuery

/-- The number of a node: its place in the order of creation. -/
abbrev NodeId := Nat

/-- An element of a document. -/
structure Element where
  tag : String
  id : Option String
  /-- The classes, separated by blanks. -/
  classList : String
  text : Option String
  /-- The node below which the element hangs; the document root has none. -/
  parent : Option NodeId
  /-- The nodes that hang below the element, in document order. -/
  children : Array NodeId
deriving DecidableEq, Repr

namespace Element

/-- An element with nothing but a tag and a parent. -/
def fresh (tag : String) (parent : Option NodeId) : Element :=
  ⟨tag, none, "", none, parent, #[]⟩

/-- An element with one more child, the last one. -/
def adopt (e : Element) (child : NodeId) : Element :=
  { e with children := e.children.push child }

/-- The classes of an element. -/
def classes (e : Element) : List String := wordsOf e.classList

/-- Whether the tag of an element is the given name, letter case aside. -/
def hasTag (e : Element) (name : String) : Bool :=
  e.tag.toList.map Char.toLower == name.toList.map Char.toLower

/-- Whether the given name is one of the classes of an element. -/
def hasClass (e : Element) (token : String) : Bool :=
  e.classes.contains token

/-- An element as a part of a path: its tag, its id after a `#`, its classes after a dot each. -/
def segment (e : Element) : String :=
  let key :=
    match e.id with
    | some id => "#" ++ id
    | none => ""
  e.tag ++ key ++ String.join (e.classes.map ("." ++ ·))

end Element

/-- A table of elements. -/
structure Document where
  elements : Array Element
deriving DecidableEq, Repr

namespace Document

/-- The tag of the document root. -/
def rootTag : String := "#document"

/-- The document root. -/
def root : NodeId := 0

/-- A document that has only its root. -/
def empty : Document := ⟨#[.fresh rootTag none]⟩

/-- The number of nodes, the root included. -/
def size (d : Document) : Nat := d.elements.size

/-- Whether nothing hangs below the root. -/
def isEmpty (d : Document) : Bool := d.size ≤ 1

/-- Whether the document has a node. -/
def contains (d : Document) (n : NodeId) : Bool := n < d.size

/-- The nodes of a document in the order of their creation. -/
def nodes (d : Document) : List NodeId := List.range d.size

/-- The element of a node. -/
def element? (d : Document) (n : NodeId) : Option Element := d.elements[n]?

/-- Changes the element of a node. -/
def modify (d : Document) (n : NodeId) (f : Element → Element) : Document :=
  ⟨d.elements.modify n f⟩

/-- Adds an element as the last child of a node that the document has. -/
def push (d : Document) (parent : NodeId) (tag : String) : Document :=
  let node := d.size
  ⟨(d.modify parent (·.adopt node)).elements.push (.fresh tag (some parent))⟩

/-- Appends an element below a node and tells its number. -/
def append? (d : Document) (parent : NodeId) (tag : String) : Option (NodeId × Document) :=
  if d.contains parent then some (d.size, d.push parent tag) else none

/-- Gives a node another id, or none. -/
def setId? (d : Document) (n : NodeId) (id : Option String) : Option Document :=
  if d.contains n then some (d.modify n fun e => { e with id }) else none

/-- Gives a node another class list. -/
def setClasses? (d : Document) (n : NodeId) (classList : String) : Option Document :=
  if d.contains n then some (d.modify n fun e => { e with classList }) else none

/-- Gives a node another text, or none. -/
def setText? (d : Document) (n : NodeId) (text : Option String) : Option Document :=
  if d.contains n then some (d.modify n fun e => { e with text }) else none

/-! ### What each operation does to the elements -/

@[simp] theorem size_empty : empty.size = 1 := rfl

@[simp] theorem size_modify (d : Document) (n : NodeId) (f : Element → Element) :
    (d.modify n f).size = d.size := by
  simp [modify, size]

@[simp] theorem size_push (d : Document) (parent : NodeId) (tag : String) :
    (d.push parent tag).size = d.size + 1 := by
  simp [push, size, modify]

theorem contains_iff {d : Document} {n : NodeId} : d.contains n = true ↔ n < d.size := by
  simp [contains]

theorem element?_modify (d : Document) (n m : NodeId) (f : Element → Element) :
    (d.modify n f).element? m = if n = m then (d.element? m).map f else d.element? m := by
  simp only [element?, modify, Array.getElem?_modify]

theorem element?_push (d : Document) (parent n : NodeId) (tag : String) :
    (d.push parent tag).element? n =
      if n = d.size then some (.fresh tag (some parent))
      else if parent = n then (d.element? n).map (·.adopt d.size)
      else d.element? n := by
  rw [← element?_modify]
  simp only [element?, push, modify, size, Array.getElem?_push, Array.size_modify]
  rfl

theorem element?_eq_none_iff {d : Document} {n : NodeId} :
    d.element? n = none ↔ d.size ≤ n := by
  simp [element?, size]

end Document

end TreeQuery
