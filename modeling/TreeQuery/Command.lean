import TreeQuery.Document.Notation
import TreeQuery.Engine
import TreeQuery.Text.Raw

/-! # Commands — what the program can be asked to do

A command evaluates a selector and writes lines: the tokens of the selector, the paths of the nodes
that it finds, or the path of the closest one. Nothing is written before the evaluation has
succeeded. A writer takes the lines one after another and may have room for only so many bytes;
then it takes what fits, and the command fails with the line that did not fit.

What files hold, and in which words a file, a writer or the reader of trees fails, is not decided
here. A fault keeps these words as its cause.
-/

namespace TreeQuery.Command

/-- Why a command fails. -/
inductive Fault where
  /-- There is no engine. -/
  | engine (fault : Engine.Fault)
  /-- The file of the tree cannot be read. -/
  | unreadableTree (path : Raw) (cause : String)
  /-- The file of the tree holds no tree. -/
  | invalidTree (path : Raw) (cause : String)
  /-- No element has the id to start from. -/
  | unknownNode (key : String)
  /-- The selector cannot be read into tokens. -/
  | notTokenized (selector : String) (fault : Engine.Fault)
  /-- The selector cannot be evaluated. -/
  | notEvaluated (selector : String) (fault : Engine.Fault)
  /-- A line cannot be written; the purpose says what it was for. -/
  | notWritten (purpose cause : String)
deriving DecidableEq, Repr

namespace Fault

/-- The message of a fault. -/
def message : Fault → String
  | .engine _ => "failed to compile the selector grammar"
  | .unreadableTree path _ => "failed to read tree file " ++ path.shown
  | .invalidTree path _ => "failed to parse tree file " ++ path.shown
  | .unknownNode key => "no element with id \x60" ++ key ++ "\x60 in the tree"
  | .notTokenized selector _ => "failed to tokenize \x60" ++ selector ++ "\x60"
  | .notEvaluated selector _ => "failed to evaluate \x60" ++ selector ++ "\x60"
  | .notWritten purpose _ => "failed to write " ++ purpose

/-- The messages of what has caused a fault, the nearest cause first. -/
def causes : Fault → List String
  | .engine fault => fault.chain
  | .unreadableTree _ cause => [cause]
  | .invalidTree _ cause => [cause]
  | .unknownNode _ => []
  | .notTokenized _ fault => fault.chain
  | .notEvaluated _ fault => fault.chain
  | .notWritten _ cause => [cause]

/-- The messages of a fault and of its causes. -/
def chain (f : Fault) : List String := f.message :: f.causes

end Fault

/-! ### Lines -/

/-- A line of output and what it is for. -/
structure Line where
  text : String
  purpose : String
deriving DecidableEq, Repr

/-- The line of a token: its kind, a tab and its text. -/
def tokenLine (t : Token) : Line :=
  ⟨t.kind.label ++ "\t" ++ t.text, "token \x60" ++ t.text ++ "\x60"⟩

/-- The line of a node found by a search: its path. -/
def resultLine (d : Document) (n : NodeId) : Line := ⟨d.path n, "search result"⟩

/-- The line of the closest node: its path. -/
def closestLine (d : Document) (n : NodeId) : Line := ⟨d.path n, "closest match"⟩

/-- The tokens of a selector, one on a line. -/
def tokenize (e : Engine) (selector : String) : Journal Fault (List Line) := do
  let tokens ← (e.tokenize selector).mapFault (.notTokenized selector)
  pure (tokens.map tokenLine)

/-- The paths of the nodes that a selector asks for, one on a line. -/
def search (e : Engine) (d : Document) (selector : String) : Journal Fault (List Line) := do
  let found ← (e.search d selector (some Document.root)).mapFault (.notEvaluated selector)
  pure (found.map (resultLine d))

/-- The path of the closest node that a selector asks for, going up from the element with an id. -/
def closest (e : Engine) (d : Document) (key selector : String) : Journal Fault (List Line) :=
  match d.findById? Document.root key with
  | none => .fail (.unknownNode key)
  | some start => do
    let found ← (e.closest? d start selector Document.root).mapFault (.notEvaluated selector)
    pure (found.toList.map (closestLine d))

section Outcomes

variable (e : Engine) (d : Document) (selector : String)

theorem outcome_tokenize : (tokenize e selector).outcome =
    ((e.tokenize selector).outcome.mapError (.notTokenized selector)).map (·.map tokenLine) := by
  unfold tokenize
  rw [Journal.outcome_bind_pure, Journal.outcome_mapFault]

theorem outcome_tokenize_of_ok {e : Engine} {selector : String} {tokens : List Token}
    (h : (e.tokenize selector).outcome = .ok tokens) :
    (tokenize e selector).outcome = .ok (tokens.map tokenLine) := by
  rw [outcome_tokenize, h]
  rfl

theorem outcome_tokenize_of_error {e : Engine} {selector : String} {cause : Engine.Fault}
    (h : (e.tokenize selector).outcome = .error cause) :
    (tokenize e selector).outcome = .error (.notTokenized selector cause) := by
  rw [outcome_tokenize, h]
  rfl

theorem outcome_search : (search e d selector).outcome =
    ((e.search d selector (some Document.root)).outcome.mapError (.notEvaluated selector)).map
      (·.map (resultLine d)) := by
  unfold search
  rw [Journal.outcome_bind_pure, Journal.outcome_mapFault]

theorem outcome_closest_of_none {key : String} (h : d.findById? Document.root key = none) :
    (closest e d key selector).outcome = .error (.unknownNode key) := by
  unfold closest
  rw [h]
  rfl

theorem outcome_closest {key : String} {start : NodeId}
    (h : d.findById? Document.root key = some start) : (closest e d key selector).outcome =
    ((e.closest? d start selector Document.root).outcome.mapError (.notEvaluated selector)).map
      (·.toList.map (closestLine d)) := by
  unfold closest
  rw [h]
  dsimp only
  rw [Journal.outcome_bind_pure, Journal.outcome_mapFault]

end Outcomes

/-! ### Trees -/

/-- The files of trees. -/
structure Files where
  /-- What a path leads to, or in which words reading it fails. -/
  content : Raw → Except String Raw
  /-- In which words the reader of trees refuses a text that describes none. -/
  refusal : String → String

/-- In which words reading a file fails that holds no text. -/
def notText : String := "stream did not contain valid UTF-8"

/-- The text in a file, or in which words reading it fails. -/
def Files.read (files : Files) (path : Raw) : Except String String := do
  let raw ← files.content path
  match raw.text? with
  | none => .error notText
  | some text => .ok text

/-- The document in the file of a tree. -/
def load (files : Files) (path : Raw) : Except Fault Document :=
  match files.read path with
  | .error cause => .error (.unreadableTree path cause)
  | .ok text =>
    match ElementSpec.ofString? text with
    | none => .error (.invalidTree path (files.refusal text))
    | some spec => .ok (.ofSpec spec)

/-! ### Writing -/

/-- The bytes of a line with its line feed. -/
def Line.bytes (l : Line) : List UInt8 := (l.text ++ "\n").toUTF8.data.toList

/-- The bytes of several lines. -/
def output (lines : List Line) : List UInt8 := lines.flatMap Line.bytes

/-- What a writer has received, and why it stopped if it did. -/
structure Delivery where
  received : List UInt8
  fault : Option Fault
deriving DecidableEq, Repr

/-- A bound on what a writer takes. -/
structure Limit where
  /-- How many bytes it takes. -/
  bytes : Nat
  /-- In which words it fails when it takes no more. -/
  complaint : String

/-- Hands lines to a writer that has room for so many bytes and fails in the given words. -/
def deliverWithin (complaint : String) : Nat → List Line → Delivery
  | _, [] => ⟨[], none⟩
  | room, l :: ls =>
    if l.bytes.length ≤ room then
      let rest := deliverWithin complaint (room - l.bytes.length) ls
      { rest with received := l.bytes ++ rest.received }
    else ⟨l.bytes.take room, some (.notWritten l.purpose complaint)⟩

/-- Hands lines to a writer, which may have a limit. -/
def deliver (limit : Option Limit) (lines : List Line) : Delivery :=
  match limit with
  | none => ⟨output lines, none⟩
  | some limit => deliverWithin limit.complaint limit.bytes lines

/-- What a writer receives of a command, and how the command ends. A command that cannot be evaluated
writes nothing. -/
def write (limit : Option Limit) (command : Journal Fault (List Line)) : Delivery :=
  match command.outcome with
  | .error fault => ⟨[], some fault⟩
  | .ok lines => deliver limit lines

theorem write_of_ok {command : Journal Fault (List Line)} {lines : List Line}
    (h : command.outcome = .ok lines) (limit : Option Limit) :
    write limit command = deliver limit lines := by
  unfold write
  rw [h]

theorem write_of_error {command : Journal Fault (List Line)} {fault : Fault}
    (h : command.outcome = .error fault) (limit : Option Limit) :
    write limit command = ⟨[], some fault⟩ := by
  unfold write
  rw [h]

/-- The text that a writer has received, if it has received whole characters. -/
def Delivery.text? (d : Delivery) : Option String :=
  String.fromUTF8? ⟨d.received.toArray⟩

end TreeQuery.Command
