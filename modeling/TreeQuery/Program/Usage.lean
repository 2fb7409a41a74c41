import TreeQuery.Settings
import TreeQuery.Text.Raw

/-! # Usage — the words of a command line

A command line names a command and gives it its options and its selector. Options that concern every
command may stand before and after the name of the command; where both are given, the later one
counts. An option that takes a value has it after an equals sign or as the next word, which may not
look like an option. After a double hyphen every word is an argument. No option may be given twice
in one place, and every command needs all of its own. Asking for the version or for help ends the
reading: what stands behind is not looked at.

Words need not be texts. A path is taken as it is; everything else has to be a text.
-/

namespace TreeQuery.Program

/-- What the program is asked to do. -/
inductive Action where
  | tokenize (selector : String)
  | search (tree : Raw) (selector : String)
  | closest (tree : Raw) (start selector : String)
deriving DecidableEq, Repr

/-- The meaning of a command line. -/
inductive Request where
  /-- Tell the version. -/
  | version
  /-- Tell how the program is used. -/
  | help
  /-- Do something, with these settings overridden. -/
  | run (level : Option Level) (strict : Bool) (action : Action)
deriving DecidableEq, Repr

/-- The name of a command. -/
inductive Verb where
  | tokenize
  | search
  | closest
deriving DecidableEq, Repr

/-- The command with a name. -/
def Verb.ofWord? : String → Option Verb
  | "tokenize" => some .tokenize
  | "search" => some .search
  | "closest" => some .closest
  | _ => none

/-- What has been given so far, in one place of the command line. -/
structure Given where
  level : Option Level := none
  strict : Bool := false
  tree : Option Raw := none
  start : Option String := none
  selector : Option String := none
deriving DecidableEq, Repr

/-- The options. -/
inductive Flag where
  | level
  | strict
  | tree
  | start
  | version
  | help
deriving DecidableEq, Repr

/-- The option with a long name. -/
def Flag.ofName? : String → Option Flag
  | "log-level" => some .level
  | "strict" => some .strict
  | "tree" => some .tree
  | "from" => some .start
  | "version" => some .version
  | "help" => some .help
  | _ => none

/-- Whether a command has an option; without a command, whether the program itself has it. -/
def Flag.belongsTo (flag : Flag) (verb : Option Verb) : Bool :=
  match flag, verb with
  | .level, _ => true
  | .strict, _ => true
  | .help, _ => true
  | .tree, some .search => true
  | .tree, some .closest => true
  | .start, some .closest => true
  | .version, none => true
  | _, _ => false

/-- A word of a command line, seen by itself. -/
inductive Word where
  /-- The double hyphen. -/
  | divider
  /-- A long option, with the value after its equals sign if there is one. -/
  | long (name : Raw) (value : Option Raw)
  /-- Short options, by the byte of the first. -/
  | short (first : UInt8)
  /-- Anything else. -/
  | plain (word : Raw)
deriving DecidableEq, Repr

/-- The byte of a hyphen. -/
@[match_pattern] def hyphen : UInt8 := 0x2d

/-- The byte of an equals sign. -/
def equalsSign : UInt8 := 0x3d

/-- What a word looks like. A single hyphen is an ordinary word. -/
def Word.ofRaw (word : Raw) : Word :=
  match word.bytes with
  | [hyphen, hyphen] => .divider
  | hyphen :: hyphen :: rest =>
    match rest.dropWhile (· ≠ equalsSign) with
    | [] => .long ⟨rest⟩ none
    | _ :: value => .long ⟨rest.takeWhile (· ≠ equalsSign)⟩ (some ⟨value⟩)
  | hyphen :: first :: _ => .short first
  | _ => .plain word

/-- Whether a word can be the value of an option in front of it. -/
def Word.isValue : Word → Bool
  | .plain _ => true
  | _ => false

/-- What the first of some short options asks for. Only the version and the help have a short
name, and a command has only the help. -/
def Request.ofShort? (verb : Option Verb) (first : UInt8) : Option Request :=
  if first = 'h'.toUInt8 then some .help
  else if first = 'V'.toUInt8 && verb.isNone then some .version
  else none

/-- Takes the value of an option. -/
def Given.take? (g : Given) (flag : Flag) (value : Raw) : Option Given :=
  match flag with
  | .level =>
    match g.level, value.text?.bind fun text => Level.ofWord? (lowerCase text) with
    | none, some level => some { g with level := some level }
    | _, _ => none
  | .tree =>
    if g.tree.isSome || value.bytes.isEmpty then none else some { g with tree := some value }
  | .start => if g.start.isSome then none else value.text?.map fun text => { g with start := text }
  | _ => none

/-- Takes the selector. -/
def Given.argument? (g : Given) (word : Raw) : Option Given :=
  if g.selector.isSome then none else word.text?.map fun text => { g with selector := text }

/-- What a command needs, if it is given. -/
def Given.action? (g : Given) : Verb → Option Action
  | .tokenize => g.selector.map .tokenize
  | .search => do some (.search (← g.tree) (← g.selector))
  | .closest => do some (.closest (← g.tree) (← g.start) (← g.selector))

/-- What is asked for by what has been given in front of the name of a command and behind it. -/
def Given.request? (before behind : Given) (verb : Verb) : Option Request :=
  (behind.action? verb).map
    (.run (behind.level <|> before.level) (behind.strict || before.strict))

/-- Reads the words after a double hyphen: each is an argument. -/
def readArguments (g : Given) : List Raw → Option Given
  | [] => some g
  | word :: words => (g.argument? word).bind (readArguments · words)

/-- Reads the words after the name of a command. -/
def readCommand (before : Given) (verb : Verb) : Given → List Raw → Option Request
  | g, [] => before.request? g verb
  | g, word :: words =>
    match Word.ofRaw word with
    | .divider => (readArguments g words).bind (before.request? · verb)
    | .plain word => (g.argument? word).bind (readCommand before verb · words)
    | .short first => Request.ofShort? (some verb) first
    | .long name value =>
      match (name.text?.bind Flag.ofName?).filter (·.belongsTo (some verb)), value, words with
      | none, _, _ => none
      | some .help, none, _ => some .help
      | some .help, some _, _ => none
      | some .strict, none, words =>
        if g.strict then none else readCommand before verb { g with strict := true } words
      | some .strict, some _, _ => none
      | some flag, some value, words =>
        (g.take? flag value).bind (readCommand before verb · words)
      | some flag, none, next :: words =>
        if (Word.ofRaw next).isValue then
          (g.take? flag next).bind (readCommand before verb · words)
        else none
      | some _, none, [] => none

/-- Reads the words after the command that asks for help: none, or the name of one command. -/
def readHelp : List Raw → Option Request
  | [] => some .help
  | [word] =>
    if word.text? = some "help" || (word.text?.bind Verb.ofWord?).isSome then some .help else none
  | _ => none

/-- Reads the words from the first on. -/
def readProgram : Given → List Raw → Option Request
  | _, [] => none
  | g, word :: words =>
    match Word.ofRaw word with
    | .divider => none
    | .plain word =>
      if word.text? = some "help" then readHelp words
      else (word.text?.bind Verb.ofWord?).bind (readCommand g · {} words)
    | .short first => Request.ofShort? none first
    | .long name value =>
      match (name.text?.bind Flag.ofName?).filter (·.belongsTo none), value, words with
      | none, _, _ => none
      | some .version, none, _ => some .version
      | some .version, some _, _ => none
      | some .help, none, _ => some .help
      | some .help, some _, _ => none
      | some .strict, none, words =>
        if g.strict then none else readProgram { g with strict := true } words
      | some .strict, some _, _ => none
      | some flag, some value, words => (g.take? flag value).bind (readProgram · words)
      | some flag, none, next :: words =>
        if (Word.ofRaw next).isValue then (g.take? flag next).bind (readProgram · words)
        else none
      | some _, none, [] => none

/-- The meaning of a command line, if it has one. -/
def Request.ofWords? (words : List Raw) : Option Request :=
  readProgram {} words

end TreeQuery.Program
