import TreeQuery.Grammar.Basic

/-! # The standard grammar — what its templates come to

    The standard templates expand to one text for every rule, and each text spells
    a pattern. Both are given here piece by piece, and the running expansion and
    the running reader of patterns are shown to arrive at them.
-/

namespace TreeQuery.Grammar.Standard

open Pattern Template

/-! ### Texts -/

/-- Texts put one after another. -/
def spelled (texts : List String) : String := texts.foldr (· ++ ·) ""

theorem toList_spelled (texts : List String) :
    (spelled texts).toList = texts.flatMap String.toList := by
  unfold spelled
  induction texts with
  | nil => rfl
  | cons text texts ih => rw [List.foldr_cons, String.toList_append, ih, List.flatMap_cons]

/-- A hexadecimal escape. -/
def unicodeText : String := spelled ["\\\\[0-9A-Fa-f]\x7b1,6\x7d(?:\\r\\n|[ \\t\\r\\n\\f])?"]

/-- An escape. -/
def escapeText : String := spelled [grouped unicodeText, "|\\\\[^\\n\\r\\f0-9A-Fa-f]"]

/-- A character beyond ASCII. -/
def nonAsciiText : String := spelled ["[^\\x00-\\x7F]"]

/-- A unit, given the characters that stand for themselves. -/
def unitText (plain : String) : String :=
  spelled [plain, grouped nonAsciiText, "|", grouped escapeText]

/-- An identifier. -/
def identText : String :=
  spelled ["[-@]?", grouped (unitText "[_A-Za-z]|"), grouped (unitText "[_A-Za-z0-9-]|"), "*"]

/-- The fragment of a rule. -/
def ruleText : Rule → String
  | .nameAndId => spelled [grouped identText, "#", grouped identText]
  | .id => spelled ["#", grouped identText]
  | .className => spelled ["\\.", grouped identText]
  | .nameAndClass => spelled [grouped identText, "\\.", grouped identText]
  | .name => spelled [grouped identText]
  | .pseudoClass => spelled [":", grouped identText]

/-- The fragments of the standard grammar. -/
def fragments : List (Rule × String) := Rule.all.map fun rule => (rule, ruleText rule)

/-- The standard templates expand to the fragments. -/
theorem expandRules_standard :
    (Templates.standard.definitions.expand.outcome.bind fun definitions =>
      (expandRules Templates.standard.rules definitions Rule.all).outcome) = .ok fragments := by
  with_unfolding_all rfl

/-! ### Patterns -/

/-- The characters of a sign. -/
def signSet : CharSet := ⟨false, [('-', '-'), ('@', '@')]⟩

/-- The characters that may stand at the start of an identifier. -/
def startSet : CharSet := ⟨false, [('A', 'Z'), ('_', '_'), ('a', 'z')]⟩

/-- The characters that may stand in an identifier. -/
def nameSet : CharSet := ⟨false, [('-', '-'), ('0', '9'), ('A', 'Z'), ('_', '_'), ('a', 'z')]⟩

/-- The characters beyond ASCII. -/
def nonAsciiSet : CharSet := ⟨true, [('\x00', '\x7f')]⟩

/-- The hexadecimal digits. -/
def hexSet : CharSet := ⟨false, [('0', '9'), ('A', 'F'), ('a', 'f')]⟩

/-- The blanks. -/
def blankSet : CharSet := ⟨false, [('\t', '\n'), ('\x0c', '\x0d'), (' ', ' ')]⟩

/-- The characters that may follow a backslash and stand for themselves. -/
def escapableSet : CharSet :=
  ⟨true, [('\n', '\n'), ('\x0c', '\x0d'), ('0', '9'), ('A', 'F'), ('a', 'f')]⟩

/-- A blank, or a carriage return and a line feed. -/
def blank : Pattern :=
  .alt (.seq (.one (.single '\r')) (.one (.single '\n'))) (.one blankSet)

/-- Hexadecimal digits and perhaps a blank. -/
def code : Pattern :=
  .seq (.repeated ⟨1, some 6, true⟩ (.one hexSet)) (.repeated ⟨0, some 1, true⟩ blank)

/-- An escape. -/
def escape : Pattern := .seq (.one (.single '\\')) (.alt code (.one escapableSet))

/-- A unit, given the characters that stand for themselves. -/
def unit (plain : CharSet) : Pattern := .alt (.one plain) (.alt (.one nonAsciiSet) escape)

/-- The parts of an identifier: a sign or none, a unit to start with, and more units. -/
def identParts : List Pattern :=
  [.repeated ⟨0, some 1, true⟩ (.one signSet), unit startSet,
    .repeated ⟨0, none, true⟩ (unit nameSet)]

/-- One particular character. -/
def letter (c : Char) : Pattern := .one (.single c)

/-- The parts of a rule. -/
def ruleParts : Rule → List Pattern
  | .nameAndId => identParts ++ letter '#' :: identParts
  | .id => letter '#' :: identParts
  | .className => letter '.' :: identParts
  | .nameAndClass => identParts ++ letter '.' :: identParts
  | .name => identParts
  | .pseudoClass => letter ':' :: identParts

/-- The pattern of a rule. -/
def rulePattern (rule : Rule) : Pattern := chain (ruleParts rule)

/-- The joined pattern: each rule in its own group. -/
def pattern : Pattern :=
  firstOf (Rule.all.map fun rule => .group (some rule.groupName) (rulePattern rule))

theorem toList_grouped (text : String) :
    (grouped text).toList = "(?:".toList ++ text.toList ++ ")".toList := by
  unfold grouped
  rw [String.toList_append, String.toList_append]

/-- The fragments joined spell the joined pattern. -/
theorem ofString_join : ofString (Scanner.join fragments) = .ok pattern := by
  refine Journal.eq_ok_of_toOption ?_
  unfold ofString Scanner.join fragments
  simp only [Rule.all, List.map_cons, List.map_nil, Scanner.wrap, Rule.groupName,
    String.toList_intercalate, String.toList_append, ruleText, identText, unitText, escapeText,
    nonAsciiText, unicodeText, toList_spelled, toList_grouped, List.flatMap_cons,
    List.flatMap_nil]
  decide +kernel

/-! ### The grammar -/

/-- Fragments whose joined text compiles make a scanner. -/
theorem outcome_ofFragments {room : Room} {fragments : List (Rule × String)} {pattern : Pattern}
    (h : compile room (Scanner.join fragments) = .ok pattern) :
    (Scanner.ofFragments room fragments).outcome =
      .ok ⟨Scanner.join fragments, pattern, fragments.map (·.1)⟩ := by
  unfold Scanner.ofFragments
  simp only [Journal.outcome_bind, Journal.outcome_ofExcept, h]
  rfl

theorem map_fst_fragments : fragments.map (·.1) = Rule.all := by
  unfold fragments
  rw [List.map_map]
  exact List.map_id _

/-- Templates make a grammar if everything about them works out. -/
theorem outcome_build {room : Room} {t : Templates} {definitions : Definitions}
    {fragments : List (Rule × String)} {scanner : Scanner}
    (hdefinitions : t.definitions.expand.outcome = .ok definitions)
    (hrules : (expandRules t.rules definitions Rule.all).outcome = .ok fragments)
    (hscanner : (Scanner.ofFragments room fragments).outcome = .ok scanner) :
    (build room t).outcome = .ok ⟨definitions, fragments, scanner⟩ := by
  unfold build
  simp only [Journal.outcome_bind, hdefinitions, Except.bind, hrules, hscanner]
  rfl

/-- The standard templates make a grammar: the fragments, and the scanner of the joined
    pattern. -/
theorem outcome_standard :
    ∃ definitions, Grammar.standard.outcome =
      .ok ⟨definitions, fragments, ⟨Scanner.join fragments, pattern, fragments.map (·.1)⟩⟩ := by
  have hrules := expandRules_standard
  cases hdefinitions : Templates.standard.definitions.expand.outcome with
  | error fault =>
    rw [hdefinitions] at hrules
    cases hrules
  | ok definitions =>
    rw [hdefinitions] at hrules
    have hcompile : compile .unlimited (Scanner.join fragments) = .ok pattern :=
      (compile_of_fits rfl).trans ofString_join
    exact ⟨definitions, outcome_build hdefinitions hrules (outcome_ofFragments hcompile)⟩

/-- There is a standard grammar. -/
theorem exists_standard : ∃ g, Grammar.standard.outcome = .ok g := by
  obtain ⟨definitions, hstandard⟩ := outcome_standard
  exact ⟨_, hstandard⟩

end TreeQuery.Grammar.Standard
