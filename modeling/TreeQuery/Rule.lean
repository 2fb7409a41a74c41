/-! # Rules and kinds — the forms a simple selector can have

A *rule* is one of the forms that the scanner tells apart. Their order in `Rule.all` is the order in
which they are tried, so it decides between two rules that fit at the same place. A *kind* is a rule
that can be looked for in a tree; the pseudo class is the one rule that cannot.
-/

namespace TreeQuery

/-- The forms of simple selectors, in the order in which they are tried. -/
inductive Rule where
  /-- A tag name and an id, as in `div#main`. -/
  | nameAndId
  /-- An id, as in `#main`. -/
  | id
  /-- A class, as in `.item`. -/
  | className
  /-- A tag name and a class, as in `li.item`. -/
  | nameAndClass
  /-- A tag name, as in `li`. -/
  | name
  /-- A pseudo class, as in `:hover`. -/
  | pseudoClass
deriving DecidableEq, Repr

namespace Rule

/-- Every rule, in order. -/
def all : List Rule := [.nameAndId, .id, .className, .nameAndClass, .name, .pseudoClass]

theorem mem_all (r : Rule) : r ∈ all := by
  cases r <;> simp [all]

/-- The place of a rule in `Rule.all`. -/
def index : Rule → Nat
  | .nameAndId => 0
  | .id => 1
  | .className => 2
  | .nameAndClass => 3
  | .name => 4
  | .pseudoClass => 5

@[simp] theorem all_index (r : Rule) : all[r.index]? = some r := by
  cases r <;> rfl

/-- The rules that come before a rule. -/
def below (r : Rule) : List Rule := all.filter fun s => s.index < r.index

/-- The rule in words. -/
def label : Rule → String
  | .nameAndId => "name and id"
  | .id => "id"
  | .className => "class"
  | .nameAndClass => "name and class"
  | .name => "name"
  | .pseudoClass => "pseudo class"

/-- The name of the group that marks the rule in a joined pattern. -/
def groupName : Rule → String
  | .nameAndId => "name_and_id"
  | .id => "id"
  | .className => "class"
  | .nameAndClass => "name_and_class"
  | .name => "name"
  | .pseudoClass => "pseudo_class"

theorem groupName_injective {r s : Rule} (h : r.groupName = s.groupName) : r = s := by
  cases r <;> cases s <;> first | rfl | (revert h; decide)

/-- The rule whose group has the given name. -/
def ofGroupName? (name : String) : Option Rule :=
  all.find? fun r => r.groupName == name

end Rule

/-- The kinds of simple selectors that can be looked for in a tree. -/
inductive Kind where
  | nameAndId
  | id
  | name
  | className
  | nameAndClass
deriving DecidableEq, Repr

namespace Kind

/-- The rule that a kind belongs to. -/
def rule : Kind → Rule
  | .nameAndId => .nameAndId
  | .id => .id
  | .name => .name
  | .className => .className
  | .nameAndClass => .nameAndClass

/-- The kind in words. -/
def label (k : Kind) : String := k.rule.label

end Kind

/-- The kind of a rule, unless the rule is the pseudo class. -/
def Rule.kind? : Rule → Option Kind
  | .nameAndId => some .nameAndId
  | .id => some .id
  | .className => some .className
  | .nameAndClass => some .nameAndClass
  | .name => some .name
  | .pseudoClass => none

@[simp] theorem Kind.kind?_rule (k : Kind) : k.rule.kind? = some k := by
  cases k <;> rfl

theorem Rule.eq_rule_of_kind? {r : Rule} {k : Kind} (h : r.kind? = some k) : r = k.rule := by
  cases r <;> cases h <;> rfl

theorem Rule.kind?_eq_none_iff {r : Rule} : r.kind? = none ↔ r = .pseudoClass := by
  cases r <;> simp [Rule.kind?]

theorem Rule.ne_pseudoClass_of_kind? {r : Rule} {k : Kind} (h : r.kind? = some k) :
    r ≠ .pseudoClass := by
  rintro rfl
  cases h

/-- A rule that belongs to no kind, in words. -/
def Rule.unsupportedMessage (r : Rule) : String := "unsupported selector rule: " ++ r.label

end TreeQuery
