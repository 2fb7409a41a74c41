import TreeQuery.Rule
import TreeQuery.Text.Quoted

/-! # Criteria — what a simple selector asks of an element

The text of a simple selector joins its parts by the marker `#` or `.`. A criterion holds the parts
themselves. A marker that follows a backslash belongs to a part, and a backslash that follows an
unescaped backslash escapes nothing.
-/

namespace TreeQuery

/-! ### Splitting at a marker -/

/-- What stands before and after the first marker that no backslash escapes. The flag says whether
the first character is escaped. -/
def splitFrom (marker : Char) : Bool → List Char → Option (List Char × List Char)
  | _, [] => none
  | true, c :: cs => (splitFrom marker false cs).map fun (before, after) => (c :: before, after)
  | false, c :: cs =>
    if c = '\\' then
      (splitFrom marker true cs).map fun (before, after) => (c :: before, after)
    else if c = marker then some ([], cs)
    else (splitFrom marker false cs).map fun (before, after) => (c :: before, after)

/-- What stands before and after the first unescaped marker of a text. -/
def splitUnescaped (marker : Char) (text : List Char) : Option (List Char × List Char) :=
  splitFrom marker false text

/-- The two parts of a text around its first unescaped marker; without one, the whole text and
nothing. -/
def parts (marker : Char) (text : String) : String × String :=
  match splitUnescaped marker text.toList with
  | some (before, after) => (String.ofList before, String.ofList after)
  | none => (text, "")

/-- What follows the first unescaped marker of a text; without one, the whole text. -/
def afterMarker (marker : Char) (text : String) : String :=
  match splitUnescaped marker text.toList with
  | some (_, after) => String.ofList after
  | none => text

/-! ### Criteria -/

/-- What a simple selector asks of an element. -/
inductive Criterion where
  /-- The tag name and the id. -/
  | nameAndId (tag key : String)
  /-- The id. -/
  | id (key : String)
  /-- The tag name. -/
  | name (tag : String)
  /-- One of the classes. -/
  | className (token : String)
  /-- The tag name and one of the classes. -/
  | nameAndClass (tag token : String)
deriving DecidableEq, Repr

namespace Criterion

/-- The criterion that a simple selector of the given kind spells. -/
def parse (kind : Kind) (text : String) : Criterion :=
  match kind with
  | .nameAndId => .nameAndId (parts '#' text).1 (parts '#' text).2
  | .id => .id (afterMarker '#' text)
  | .name => .name text
  | .className => .className (afterMarker '.' text)
  | .nameAndClass => .nameAndClass (parts '.' text).1 (parts '.' text).2

/-- The kind of a criterion. -/
def kind : Criterion → Kind
  | .nameAndId .. => .nameAndId
  | .id _ => .id
  | .name _ => .name
  | .className _ => .className
  | .nameAndClass .. => .nameAndClass

@[simp] theorem kind_parse (k : Kind) (text : String) : (parse k text).kind = k := by
  cases k <;> rfl

/-- The tag name that is asked for, if any. -/
def tag? : Criterion → Option String
  | .nameAndId tag _ => some tag
  | .name tag => some tag
  | .nameAndClass tag _ => some tag
  | _ => none

/-- The id that is asked for, if any. -/
def key? : Criterion → Option String
  | .nameAndId _ key => some key
  | .id key => some key
  | _ => none

/-- The class that is asked for, if any. -/
def token? : Criterion → Option String
  | .className token => some token
  | .nameAndClass _ token => some token
  | _ => none

/-- A criterion as it stands in a record of the journal. -/
def describe : Criterion → String
  | .nameAndId tag key =>
    "NameAndId \x7b name: " ++ Text.quoted tag ++ ", id: " ++ Text.quoted key ++ " \x7d"
  | .id key => "Id(" ++ Text.quoted key ++ ")"
  | .name tag => "Name(" ++ Text.quoted tag ++ ")"
  | .className token => "Class(" ++ Text.quoted token ++ ")"
  | .nameAndClass tag token =>
    "NameAndClass \x7b name: " ++ Text.quoted tag ++ ", class: " ++ Text.quoted token ++ " \x7d"

end Criterion

end TreeQuery
