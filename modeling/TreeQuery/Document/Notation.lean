import TreeQuery.Document.Spec
import TreeQuery.Json.Value

/-! # Trees in JSON — element specifications as they are written

An element is written as an object with the member `tag` and, optionally, `id`, `class`, `text` and
`children`, or as an array of these five in this order, of which all but the first may be left
off at the end. The id, the class and the text may be null; the children are an array. Other
members are ignored, but a member that means something may not be repeated. Arrays and objects that
mean something may be nested only so deep.
-/

namespace TreeQuery.ElementSpec

/-- How many arrays and objects may be nested in each other. -/
def nestingLimit : Nat := 127

/-- What is known of an element while its members are read. -/
structure Draft where
  tag : Option String := none
  id : Option (Option String) := none
  classList : Option (Option String) := none
  text : Option (Option String) := none
  children : Option (List ElementSpec) := none

/-- The element that a draft describes, if it has a tag. -/
def Draft.complete? (d : Draft) : Option ElementSpec :=
  d.tag.map fun tag =>
    ⟨tag, d.id.getD none, d.classList.getD none, d.text.getD none, d.children.getD []⟩

/-- The text that a value stands for. -/
def string? : Json → Option String
  | .text content => content
  | _ => none

/-- The text that a value stands for, or nothing for null. -/
def optional? : Json → Option (Option String)
  | .null => some none
  | .text (some content) => some (some content)
  | _ => none

mutual

/-- The element that a value describes, inside an allowance for nesting. -/
def ofJsonWithin? (room : Nat) : Json → Option ElementSpec
  | .object members =>
    if room = 0 then none else (ofMembers? (room - 1) {} members).bind Draft.complete?
  | .array items => if room = 0 then none else (ofItems? (room - 1) items).bind Draft.complete?
  | _ => none

/-- Adds the members of an object to a draft. -/
def ofMembers? (room : Nat) (d : Draft) : List (Option String × Json) → Option Draft
  | [] => some d
  | (none, _) :: _ => none
  | (some name, value) :: members =>
    if name = "tag" then
      match d.tag, string? value with
      | none, some tag => ofMembers? room { d with tag } members
      | _, _ => none
    else if name = "id" then
      match d.id, optional? value with
      | none, some id => ofMembers? room { d with id } members
      | _, _ => none
    else if name = "class" then
      match d.classList, optional? value with
      | none, some classList => ofMembers? room { d with classList } members
      | _, _ => none
    else if name = "text" then
      match d.text, optional? value with
      | none, some text => ofMembers? room { d with text } members
      | _, _ => none
    else if name = "children" then
      match d.children, childrenOf? room value with
      | none, some children => ofMembers? room { d with children } members
      | _, _ => none
    else ofMembers? room d members

/-- Reads the items of an array as the five parts of an element. -/
def ofItems? (room : Nat) : List Json → Option Draft
  | [] => none
  | [tag] => do
    let tag ← string? tag
    some { tag }
  | [tag, id] => do
    let tag ← string? tag
    let id ← optional? id
    some { tag, id }
  | [tag, id, classList] => do
    let tag ← string? tag
    let id ← optional? id
    let classList ← optional? classList
    some { tag, id, classList }
  | [tag, id, classList, text] => do
    let tag ← string? tag
    let id ← optional? id
    let classList ← optional? classList
    let text ← optional? text
    some { tag, id, classList, text }
  | [tag, id, classList, text, children] => do
    let tag ← string? tag
    let id ← optional? id
    let classList ← optional? classList
    let text ← optional? text
    let children ← childrenOf? room children
    some { tag, id, classList, text, children }
  | _ => none

/-- The children that a value lists. -/
def childrenOf? (room : Nat) : Json → Option (List ElementSpec)
  | .array items => if room = 0 then none else ofAll? (room - 1) items
  | _ => none

/-- The elements that several values describe. -/
def ofAll? (room : Nat) : List Json → Option (List ElementSpec)
  | [] => some []
  | value :: values =>
    match ofJsonWithin? room value, ofAll? room values with
    | some spec, some specs => some (spec :: specs)
    | _, _ => none

end

/-- The element that a value describes. -/
def ofJson? (value : Json) : Option ElementSpec :=
  ofJsonWithin? nestingLimit value

/-- The element that a JSON text describes. -/
def ofString? (s : String) : Option ElementSpec :=
  (Json.ofString? s).bind ofJson?

end TreeQuery.ElementSpec
