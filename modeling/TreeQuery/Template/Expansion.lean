import TreeQuery.Template.Basic
import TreeQuery.Grammar.Fault
import TreeQuery.Journal

/-! # Expansion — named fragments put in place of their references

Definitions give names to templates. They are expanded against each other, in the order of their
names and each at most once, until none holds a reference; a template is then expanded against the
finished definitions. What stands for a reference is enclosed in a group that has no name, so that
the alternatives inside a fragment stay together.
-/

namespace TreeQuery

/-! ### Definitions -/

/-- Texts by name, in the order of their names. -/
structure Definitions where
  entries : List (String × String)
deriving DecidableEq, Repr

namespace Definitions

/-- No definitions. -/
def empty : Definitions := ⟨[]⟩

/-- Puts a text under a name into an ordered list, in place of the one that stands there. -/
def insertEntry (name text : String) : List (String × String) → List (String × String)
  | [] => [(name, text)]
  | (other, old) :: entries =>
    if name = other then (name, text) :: entries
    else if name < other then (name, text) :: (other, old) :: entries
    else (other, old) :: insertEntry name text entries

/-- Defines or replaces a name. -/
def insert (d : Definitions) (name text : String) : Definitions :=
  ⟨insertEntry name text d.entries⟩

/-- The text under a name. -/
def find? (d : Definitions) (name : String) : Option String :=
  (d.entries.find? fun entry => entry.1 == name).map (·.2)

/-- The number of names. -/
def size (d : Definitions) : Nat := d.entries.length

/-- The definitions of a list; of two with one name the later counts. -/
def ofList (entries : List (String × String)) : Definitions :=
  entries.foldl (fun d entry => d.insert entry.1 entry.2) empty

@[simp] theorem find?_empty (name : String) : empty.find? name = none := rfl

theorem find?_insertEntry_self (name text : String) (entries : List (String × String)) :
    ((insertEntry name text entries).find? fun entry => entry.1 == name) = some (name, text) := by
  induction entries with
  | nil => simp [insertEntry]
  | cons entry entries ih =>
    obtain ⟨other, old⟩ := entry
    rw [insertEntry]
    split
    · simp
    · rename_i hne
      split
      · simp
      · rw [List.find?_cons_of_neg (by simpa using fun h => hne h.symm), ih]

theorem find?_insertEntry_of_ne {name other : String} (text : String)
    (entries : List (String × String)) (hne : other ≠ name) :
    ((insertEntry name text entries).find? fun entry => entry.1 == other) =
      entries.find? fun entry => entry.1 == other := by
  induction entries with
  | nil => simp [insertEntry, hne.symm]
  | cons entry entries ih =>
    obtain ⟨key, old⟩ := entry
    rw [insertEntry]
    split
    · rename_i heq
      subst heq
      simp [hne.symm]
    · split
      · rw [List.find?_cons_of_neg (by simpa using hne.symm)]
      · by_cases hk : key = other
        · simp [hk]
        · rw [List.find?_cons_of_neg (by simpa using hk), ih,
            List.find?_cons_of_neg (by simpa using hk)]

@[simp] theorem find?_insert_self (d : Definitions) (name text : String) :
    (d.insert name text).find? name = some text := by
  simp [find?, insert, find?_insertEntry_self]

theorem find?_insert_of_ne (d : Definitions) {name other : String} (text : String)
    (hne : other ≠ name) : (d.insert name text).find? other = d.find? other := by
  simp [find?, insert, find?_insertEntry_of_ne text d.entries hne]

end Definitions

/-! ### Expansion -/

namespace Template

/-- An expanded fragment as it stands in place of a reference. -/
def grouped (text : String) : String := "(?:" ++ text ++ ")"

/-- Expands pieces from left to right. What stands for a name is asked of `look`, which may finish
definitions on the way. -/
def expandPieces (look : Definitions → String → Journal Grammar.Fault (Definitions × String)) :
    List Piece → Definitions → Journal Grammar.Fault (Definitions × String)
  | [], finished => pure (finished, "")
  | .literal text :: ps, finished => do
    let (finished, rest) ← expandPieces look ps finished
    pure (finished, String.ofList text ++ rest)
  | .reference name :: ps, finished => do
    let (finished, text) ← look finished (String.ofList name)
    let (finished, rest) ← expandPieces look ps finished
    pure (finished, grouped text ++ rest)

/-- The pieces of a template, as a step in the building of a grammar. -/
def readIn (template : String) : Journal Grammar.Fault (List Piece) :=
  .ofExcept ((read template.toList).mapError .reference)

/-- Expands one template against definitions that hold no references. The owner is named when a
reference leads nowhere. -/
def expand (owner template : String) (finished : Definitions) : Journal Grammar.Fault String := do
  let ps ← readIn template
  let look (finished : Definitions) (name : String) :=
    match finished.find? name with
    | some text => (pure (finished, text) : Journal Grammar.Fault (Definitions × String))
    | none => .fail (.unknownName name owner)
  let (_, text) ← expandPieces look ps finished
  pure text

end Template

namespace Definitions

/-- Expands the definition of a name, given the definitions finished so far and the names whose
expansion is under way. The first argument bounds how many expansions may be under way. -/
def expandName (d : Definitions) :
    Nat → List String → Definitions → String → String →
      Journal Grammar.Fault (Definitions × String)
  | 0, _, _, name, _ => .fail (.cycle name)
  | n + 1, pending, finished, name, template =>
    match finished.find? name with
    | some text => pure (finished, text)
    | none =>
      if name ∈ pending then .fail (.cycle name)
      else do
        let ps ← Template.readIn template
        let look (finished : Definitions) (inner : String) :=
          match d.find? inner with
          | some template => expandName d n (name :: pending) finished inner template
          | none => .fail (.unknownName inner name)
        let (finished, text) ← Template.expandPieces look ps finished
        Journal.note (.definitionExpanded name text)
        pure (finished.insert name text, text)

/-- Expands the definitions of a list of names, one after another. -/
def expandEntries (d : Definitions) :
    List (String × String) → Definitions → Journal Grammar.Fault Definitions
  | [], finished => pure finished
  | (name, template) :: entries, finished => do
    let (finished, _) ← d.expandName (d.size + 1) [] finished name template
    expandEntries d entries finished

/-- Expands every definition against the others. Only distinct names can be under way at once, so
there are never more of them than definitions. -/
def expand (d : Definitions) : Journal Grammar.Fault Definitions :=
  d.expandEntries d.entries empty

end Definitions

end TreeQuery
