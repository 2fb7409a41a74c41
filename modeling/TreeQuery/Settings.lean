import TreeQuery.Event
import TreeQuery.Text.Space

/-! # Settings — how much is reported and how strictly selectors are read

Settings come from named variables and may be overridden. A level is written without regard to
letter case; a switch also without regard to the space around it. A level that is no level is
complained of before a switch that is no switch.

Only letters of the English alphabet have two cases here. That is enough: no other letter becomes
one of the letters of the words below when it is made small.
-/

namespace TreeQuery

/-- A string with the letters of the English alphabet made small. -/
def lowerCase (s : String) : String :=
  String.ofList (s.toList.map Char.toLower)

/-- The level that a small word names. -/
def Level.ofWord? : String → Option Level
  | "trace" => some .trace
  | "debug" => some .debug
  | "info" => some .info
  | "warn" => some .warn
  | "warning" => some .warn
  | "error" => some .error
  | _ => none

/-- Whether a small word turns something on or off. -/
def switch? : String → Option Bool
  | "1" => some true
  | "true" => some true
  | "yes" => some true
  | "on" => some true
  | "0" => some false
  | "false" => some false
  | "no" => some false
  | "off" => some false
  | _ => none

/-- How much is reported, and whether selectors are read strictly. -/
structure Settings where
  level : Level := .warn
  strict : Bool := false
deriving DecidableEq, Repr

namespace Settings

/-- Why settings cannot be made. -/
inductive Fault where
  /-- A text names no level. -/
  | unknownLevel (text : String)
  /-- The value of a variable turns nothing on or off. -/
  | badSwitch (setting value : String)
deriving DecidableEq, Repr

/-- A complaint about settings. -/
def complaint (detail : String) : String := "invalid configuration: " ++ detail

/-- A fault of settings in words. -/
def Fault.message : Fault → String
  | .unknownLevel text =>
    complaint ("unknown log level \x27" ++ text ++
      "\x27, expected one of: trace, debug, info, warn, error")
  | .badSwitch setting value =>
    complaint ("invalid " ++ setting ++ " value \x27" ++ value ++
      "\x27, expected true or false")

/-- The level that a text names. -/
def readLevel (text : String) : Except Fault Level :=
  match Level.ofWord? (lowerCase text) with
  | some level => .ok level
  | none => .error (.unknownLevel text)

/-- Whether the value of a variable turns it on or off. -/
def readSwitch (setting value : String) : Except Fault Bool :=
  match switch? (lowerCase (Text.trimSpace value)) with
  | some on => .ok on
  | none => .error (.badSwitch setting value)

/-- The variable that sets the level. -/
def levelVariable : String := "SELQ_LOG_LEVEL"

/-- The variable that makes selectors be read strictly. -/
def strictVariable : String := "SELQ_STRICT"

/-- The settings that some variables make. -/
def ofVariables (value? : String → Option String) : Except Fault Settings := do
  let level ←
    match value? levelVariable with
    | some text => readLevel text
    | none => .ok .warn
  let strict ←
    match value? strictVariable with
    | some text => readSwitch strictVariable text
    | none => .ok false
  .ok { level, strict }

/-- Settings with some of them overridden. -/
def override (s : Settings) (level : Option Level) (strict : Option Bool) : Settings :=
  ⟨level.getD s.level, strict.getD s.strict⟩

/-- Settings with another level. -/
def withLevel (s : Settings) (level : Level) : Settings := { s with level }

/-- The mode in which selectors are read. -/
def mode (s : Settings) : Selector.Mode := if s.strict then .strict else .lenient

end Settings

end TreeQuery
