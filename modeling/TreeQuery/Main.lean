import TreeQuery.Program.Run

/-! # The command line

Reads the command line, the two variables and the file that an option names, and does what the run
says: writes, reports, and ends with a status.
-/

namespace TreeQuery.Program

/-- What a path leads to, or what is said of why it cannot be read. -/
def readFile (path : Raw) : IO (Except String Raw) := do
  try
    let content ← IO.FS.readBinFile path.shown
    pure (.ok ⟨content.data.toList⟩)
  catch e =>
    pure (.error (toString e))

/-- The path of the tree that a command line names. -/
def treePath? (words : List Raw) : Option Raw :=
  match Request.ofWords? words with
  | some (.run _ _ (.search tree _)) => some tree
  | some (.run _ _ (.closest tree _ _)) => some tree
  | _ => none

/-- How the program is used. -/
def usage : String :=
  "Evaluate CSS-like selectors against element trees\n\n" ++
    "Usage: selq [--log-level <LEVEL>] [--strict] tokenize <SELECTOR>\n" ++
    "       selq [--log-level <LEVEL>] [--strict] search --tree <TREE> <SELECTOR>\n" ++
    "       selq [--log-level <LEVEL>] [--strict] closest --tree <TREE> --from <ID> <SELECTOR>\n"

/-- What a run of the program starts from. -/
def observe (words : List Raw) : IO World := do
  let level ← IO.getEnv Settings.levelVariable
  let strict ← IO.getEnv Settings.strictVariable
  let content ←
    match treePath? words with
    | some path => readFile path
    | none => pure (.error "")
  let environment (name : String) :=
    if name = Settings.levelVariable then level.map Raw.ofString
    else if name = Settings.strictVariable then strict.map Raw.ofString
    else none
  let files : Command.Files := ⟨fun _ => content, fun _ => "no description of an element"⟩
  pure ⟨words, environment, files, fun _ => usage⟩

end TreeQuery.Program

/-- Runs the program. -/
def main (words : List String) : IO UInt32 := do
  let world ← TreeQuery.Program.observe (words.map TreeQuery.Raw.ofString)
  let result := TreeQuery.Program.run world
  let out ← IO.getStdout
  let err ← IO.getStderr
  for record in result.records do
    err.putStrLn record
  out.putStr result.output
  out.flush
  pure result.status.toUInt32
