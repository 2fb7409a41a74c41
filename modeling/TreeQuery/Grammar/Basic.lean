import TreeQuery.Template.Expansion
import TreeQuery.Grammar.Scanner

/-! # Grammars — the templates of the rules, expanded and compiled

A grammar is built from templates: definitions of named fragments and one template for every rule.
The standard templates describe identifiers with escapes and characters beyond ASCII; they also
define numbers and strings, which no rule refers to yet.
-/

namespace TreeQuery

/-! ### Templates -/

/-- What a grammar is built from. -/
structure Templates where
  /-- The named fragments. -/
  definitions : Definitions
  /-- The templates of the rules, as far as there are any. -/
  rules : Rule → Option String

namespace Templates

/-- No templates. -/
def empty : Templates := ⟨.empty, fun _ => none⟩

/-- Defines or replaces a named fragment. -/
def define (t : Templates) (name template : String) : Templates :=
  { t with definitions := t.definitions.insert name template }

/-- Gives a rule a template, in place of the one it has. -/
def setRule (t : Templates) (rule : Rule) (template : String) : Templates :=
  { t with rules := fun r => if r = rule then some template else t.rules r }

@[simp] theorem rules_setRule_self (t : Templates) (rule : Rule) (template : String) :
    (t.setRule rule template).rules rule = some template := by
  simp [setRule]

theorem rules_setRule_of_ne (t : Templates) {rule r : Rule} (template : String) (h : r ≠ rule) :
    (t.setRule rule template).rules r = t.rules r := by
  simp [setRule, h]

@[simp] theorem definitions_setRule (t : Templates) (rule : Rule) (template : String) :
    (t.setRule rule template).definitions = t.definitions := rfl

@[simp] theorem rules_define (t : Templates) (name template : String) :
    (t.define name template).rules = t.rules := rfl

/-- The standard named fragments. -/
def standardDefinitions : List (String × String) := [
  ("nl", "\\n|\\r\\n|\\r|\\f"),
  ("w", "[ \\t\\r\\n\\f]*"),
  ("nonascii", "[^\\x00-\\x7F]"),
  ("num", "-?(?:[0-9]+|[0-9]*\\.[0-9]+)"),
  ("unicode", "\\\\[0-9A-Fa-f]\x7b1,6\x7d(?:\\r\\n|[ \\t\\r\\n\\f])?"),
  ("escape", "#\x7bunicode\x7d|\\\\[^\\n\\r\\f0-9A-Fa-f]"),
  ("nmchar", "[_A-Za-z0-9-]|#\x7bnonascii\x7d|#\x7bescape\x7d"),
  ("nmstart", "[_A-Za-z]|#\x7bnonascii\x7d|#\x7bescape\x7d"),
  ("ident", "[-@]?#\x7bnmstart\x7d#\x7bnmchar\x7d*"),
  ("name", "#\x7bnmchar\x7d+"),
  ("string1", "\x22(?:[^\\n\\r\\f\x22]|#\x7bnl\x7d|#\x7bnonascii\x7d|#\x7bescape\x7d)*\x22"),
  ("string2", "\x27(?:[^\\n\\r\\f\x27]|#\x7bnl\x7d|#\x7bnonascii\x7d|#\x7bescape\x7d)*\x27"),
  ("string", "#\x7bstring1\x7d|#\x7bstring2\x7d")]

/-- The standard templates of the rules. -/
def standardRules : List (Rule × String) := [
  (.nameAndId, "#\x7bident\x7d##\x7bident\x7d"),
  (.id, "##\x7bident\x7d"),
  (.className, "\\.#\x7bident\x7d"),
  (.nameAndClass, "#\x7bident\x7d\\.#\x7bident\x7d"),
  (.name, "#\x7bident\x7d"),
  (.pseudoClass, ":#\x7bident\x7d")]

/-- The standard templates. -/
def standard : Templates :=
  let defined := standardDefinitions.foldl (fun t entry => t.define entry.1 entry.2) empty
  standardRules.foldl (fun t entry => t.setRule entry.1 entry.2) defined

end Templates

/-! ### Grammars -/

/-- Expanded templates and the scanner made of them. -/
structure Grammar where
  /-- The named fragments, expanded. -/
  definitions : Definitions
  /-- The fragments of the rules, in the order of the rules. -/
  fragments : List (Rule × String)
  scanner : Scanner

namespace Grammar

/-- The fragment of a rule. -/
def fragment? (g : Grammar) (rule : Rule) : Option String :=
  (g.fragments.find? fun fragment => fragment.1 == rule).map (·.2)

/-- Expands the templates of a list of rules, one after another. -/
def expandRules (rules : Rule → Option String) (definitions : Definitions) :
    List Rule → Journal Fault (List (Rule × String))
  | [] => pure []
  | rule :: others =>
    match rules rule with
    | none => .fail (.missingRule rule)
    | some template => do
      let text ← Template.expand rule.label template definitions
      Journal.note (.ruleExpanded rule text)
      let fragments ← expandRules rules definitions others
      pure ((rule, text) :: fragments)

/-- Builds the grammar of some templates. -/
def build (room : Pattern.Room) (t : Templates) : Journal Fault Grammar := do
  let definitions ← t.definitions.expand
  let fragments ← expandRules t.rules definitions Rule.all
  let scanner ← Scanner.ofFragments room fragments
  pure ⟨definitions, fragments, scanner⟩

/-- The standard grammar. It is small, so there is always room for it. -/
def standard : Journal Fault Grammar := build .unlimited .standard

end Grammar

end TreeQuery
