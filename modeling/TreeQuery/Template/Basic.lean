/-! # Templates — text with references to named fragments

A template is literal text with references of the form `#` followed by a name in braces. Only a
brace that is followed by a letter or an underscore opens a reference, so the repetition marks of a
pattern stay literal. A reference that is opened must be closed right after its name.
-/

namespace TreeQuery.Template

/-- Whether a character may start a name. -/
def isNameStart (c : Char) : Bool := c.isAlpha || c == '_'

/-- Whether a character may stand inside a name. -/
def isNameChar (c : Char) : Bool := c.isAlphanum || c == '_'

/-- A piece of a template. -/
inductive Piece where
  /-- Text that stands for itself. -/
  | literal (text : List Char)
  /-- A reference to a named fragment. -/
  | reference (name : List Char)
deriving DecidableEq, Repr

/-- A piece as it is written. -/
def Piece.write : Piece → List Char
  | .literal text => text
  | .reference name => '#' :: '\x7b' :: name ++ ['\x7d']

/-- A template as it is written. -/
def write (pieces : List Piece) : List Char :=
  pieces.flatMap Piece.write

@[simp] theorem write_nil : write [] = [] := rfl

@[simp] theorem write_cons (p : Piece) (ps : List Piece) : write (p :: ps) = p.write ++ write ps :=
  rfl

/-! ### Faults -/

/-- What is wrong with a reference. -/
inductive Problem where
  /-- The template ends before the closing brace. -/
  | missingBrace
  /-- The name is followed by something else than the closing brace. -/
  | invalidReference
deriving DecidableEq, Repr

/-- A problem in words. -/
def Problem.message : Problem → String
  | .missingBrace => "missing closing \x27\x7d\x27 for macro reference"
  | .invalidReference => "invalid macro reference in template"

/-- A faulty reference: what is wrong, the offset at which it opens, and its name so far. -/
structure Fault where
  problem : Problem
  position : Nat
  name : Option String
deriving DecidableEq, Repr

/-- A faulty reference in words. -/
def Fault.message (f : Fault) : String :=
  match f.name with
  | some name =>
    f.problem.message ++ " for macro \x60" ++ name ++ "\x60 at byte " ++ toString f.position ++
      " (zero-based)"
  | none => f.problem.message ++ " at byte " ++ toString f.position ++ " (zero-based)"

/-! ### Reading -/

/-- Where a reader of templates stands. -/
inductive Mode where
  /-- In literal text. -/
  | text
  /-- In the name of a reference that opened at an offset; the name so far, latest character
  first. -/
  | name (opening : Nat) (read : List Char)

/-- Puts a character in front of a list of pieces, joining it to a literal that comes first. -/
def growLiteral (c : Char) : List Piece → List Piece
  | .literal text :: ps => .literal (c :: text) :: ps
  | ps => .literal [c] :: ps

/-- The pieces of the rest of a template that starts at an offset. -/
def readFrom : Nat → Mode → List Char → Except Fault (List Piece)
  | _, .text, [] => .ok []
  | offset, .text, '#' :: '\x7b' :: c :: cs =>
    if isNameStart c then readFrom (offset + 2) (.name offset []) (c :: cs)
    else (readFrom (offset + 1) .text ('\x7b' :: c :: cs)).map (growLiteral '#')
  | offset, .text, c :: cs =>
    (readFrom (offset + c.utf8Size) .text cs).map (growLiteral c)
  | _, .name opening read, [] =>
    .error ⟨.missingBrace, opening, some (String.ofList read.reverse)⟩
  | offset, .name opening read, c :: cs =>
    if isNameChar c then readFrom (offset + 1) (.name opening (c :: read)) cs
    else if c = '\x7d' then
      (readFrom (offset + 1) .text cs).map fun ps => .reference read.reverse :: ps
    else .error ⟨.invalidReference, opening, some (String.ofList read.reverse)⟩

/-- The pieces of a template. -/
def read (cs : List Char) : Except Fault (List Piece) :=
  readFrom 0 .text cs

end TreeQuery.Template
