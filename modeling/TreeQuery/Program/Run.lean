import TreeQuery.Command
import TreeQuery.Program.Usage

/-! # Runs — what the program does with a command line

A run reads its command line, its variables and, if the command asks for it, the file of a tree. It
ends with a status, what it writes, and what it reports. The status is 2 if the command line or a
variable is wrong, 1 if the command fails, and otherwise 0. A wrong variable counts even where an
option overrides it, but not if the run only tells the version or how the program is used. A
variable with a value that is no text is as good as unset.
-/

namespace TreeQuery.Program

/-- The name and the version of the program. -/
def version : String := "selq 0.1.0"

/-- What a run starts from. -/
structure World where
  /-- The words of the command line. -/
  words : List Raw
  /-- The variables that are set. -/
  environment : String → Option Raw
  /-- The files that a command line may name. -/
  files : Command.Files
  /-- How the program is used, in the words that a command line asks for. -/
  usage : List Raw → String

/-- The value of a variable, if it is set to a text. -/
def World.value? (w : World) (name : String) : Option String :=
  (w.environment name).bind Raw.text?

/-- The same but for a variable that is not set. -/
def World.unset (w : World) (name : String) : World :=
  { w with environment := fun other => if other = name then none else w.environment other }

/-- How a run ends. -/
structure Result where
  status : Nat
  /-- What is written. -/
  output : String
  /-- What is reported as a warning or an error, one record an item. -/
  records : List String
deriving DecidableEq, Repr

/-! ### Records -/

/-- Whether a character can steer a terminal: the escape character, the bell, the backspace, the
form feed, the delete character, and the control characters beyond ASCII. -/
def steersTerminal (c : Char) : Bool :=
  c = '\x1b' || c = '\x07' || c = '\x08' || c = '\x0c' || (0x7f ≤ c.toNat && c.toNat ≤ 0x9f)

/-- One character in the message of a record. One that can steer a terminal is written by its code,
with two digits within ASCII and in braces beyond. -/
def messageChar (c : Char) : String :=
  if steersTerminal c then
    let code := Text.hexadecimal c.toNat
    if 0x80 ≤ c.toNat then "\\u\x7b" ++ code ++ "\x7d"
    else if c.toNat < 0x10 then "\\x0" ++ code
    else "\\x" ++ code
  else String.singleton c

/-- The message of a record. -/
def message (text : String) : String :=
  String.join (text.toList.map messageChar)

/-- What an action is about, as far as its records show it. -/
def Action.scope : Action → String
  | .tokenize selector => "tokenize\x7bselector=" ++ selector ++ "\x7d: "
  | .search _ selector => "search\x7bselector=" ++ selector ++ "\x7d: "
  | .closest _ start selector =>
    "closest\x7bselector=" ++ selector ++ " from=" ++ start ++ "\x7d: "

/-- A warning as a record of the program. Where the level shows more than warnings, the record says
what the action is about. -/
def warning (level : Level) (action : Action) (m : Selector.Malformed) : String :=
  let scope := if Level.info.isShownAt level then action.scope else ""
  "WARN " ++ scope ++ "selq_grammar::tokenizer: " ++ message (Event.ignored m).message

/-- The records of what an action has reported, at a level. -/
def warnings (level : Level) (action : Action) (events : List Event) : List String :=
  if Level.warn.isShownAt level then (events.filterMap Event.warning?).map (warning level action)
  else []

/-- A failure as a record of the program. -/
def failure (chain : List String) : String := "ERROR selq: " ++ message (": ".intercalate chain)

/-- A fault of the settings as a record of the program. -/
def misconfiguration (fault : Settings.Fault) : String :=
  "ERROR selq: invalid configuration error=" ++ fault.message

/-! ### Running -/

/-- The lines that an action writes. -/
def perform (engine : Engine) (files : Command.Files) :
    Action → Journal Command.Fault (List Command.Line)
  | .tokenize selector => Command.tokenize engine selector
  | .search tree selector => do
    let d ← .ofExcept (Command.load files tree)
    Command.search engine d selector
  | .closest tree start selector => do
    let d ← .ofExcept (Command.load files tree)
    Command.closest engine d start selector

/-- The lines that an action writes, with an engine of its own. -/
def execute (mode : Selector.Mode) (files : Command.Files) (action : Action) :
    Journal Command.Fault (List Command.Line) := do
  let engine ← (Engine.standard mode).mapFault .engine
  perform engine files action

/-- How a run ends that performs an action at a level, by what the action has reported and how it
has ended. -/
def finish (level : Level) (action : Action)
    (journal : Journal Command.Fault (List Command.Line)) : Result :=
  let records := warnings level action journal.events
  match journal.outcome with
  | .error fault => ⟨1, "", records ++ [failure fault.chain]⟩
  | .ok lines => ⟨0, String.join (lines.map fun l => l.text ++ "\n"), records⟩

/-- Runs the program. -/
def run (w : World) : Result :=
  match Request.ofWords? w.words with
  | none => ⟨2, "", []⟩
  | some .version => ⟨0, version ++ "\n", []⟩
  | some .help => ⟨0, w.usage w.words, []⟩
  | some (.run level strict action) =>
    match Settings.ofVariables w.value? with
    | .error fault => ⟨2, "", [misconfiguration fault]⟩
    | .ok settings =>
      let settings := settings.override level (if strict then some true else none)
      finish settings.level action (execute settings.mode w.files action)

end TreeQuery.Program
