import TreeQuery.Pattern.Basic

/-! # Plans — a pattern written out and numbered

A plan is a pattern made ready for reading. Repetitions with an upper bound are written out, one
copy of the body for every round, so the only repetition left is the loop. And every place of the
pattern where a reading can wait or branch has a number of its own: a set of characters, a choice,
and the junction of a loop, where one more round or leaving the loop is chosen. The numbers tell
two visits to one place from visits to two places that look alike.
-/

namespace TreeQuery.Pattern

/-- A pattern without bounded repetitions, its places numbered. -/
inductive Plan where
  /-- Reads nothing. -/
  | empty
  /-- Reads one character of a set. -/
  | one (place : Nat) (set : CharSet)
  /-- Reads nothing, at the start of the text only. -/
  | start
  /-- Reads nothing, at the end of the text only. -/
  | finish
  /-- Reads what `first` reads, then what `second` reads. -/
  | seq (first second : Plan)
  /-- Reads what `preferred` reads, or else what `other` reads. -/
  | alt (place : Nat) (preferred other : Plan)
  /-- Reads what the body reads and remembers it under a name. -/
  | group (name : String) (body : Plan)
  /-- Reads what the body reads, any number of times. After each round, and before the first one
  unless `entered`, comes the junction: one more round or leaving the loop, the former preferred if
  the loop is greedy. -/
  | loop (place : Nat) (greedy entered : Bool) (body : Plan)
deriving DecidableEq, Repr

/-! ### Drafts -/

/-- A plan that still waits for the number of its first place. It answers the plan and the first
number it has not used. -/
abbrev Draft : Type := Nat → Plan × Nat

namespace Draft

/-- Reads nothing. -/
def empty : Draft := fun n => (.empty, n)

/-- One character of a set. -/
def one (set : CharSet) : Draft := fun n => (.one n set, n + 1)

/-- One draft after another. -/
def seq (first second : Draft) : Draft := fun n =>
  let (p, n) := first n
  let (q, n) := second n
  (.seq p q, n)

/-- One draft or else another. -/
def alt (preferred other : Draft) : Draft := fun place =>
  let (p, n) := preferred (place + 1)
  let (q, n) := other n
  (.alt place p q, n)

/-- A named group. -/
def group (name : String) (body : Draft) : Draft := fun n =>
  let (p, n) := body n
  (.group name p, n)

/-- A loop. -/
def loop (greedy entered : Bool) (body : Draft) : Draft := fun place =>
  let (p, n) := body (place + 1)
  (.loop place greedy entered p, n)

/-- The body or nothing, the body preferred if greedy. -/
def optional (greedy : Bool) (body : Draft) : Draft :=
  if greedy then alt body empty else alt empty body

/-- The body as many times as given. -/
def exactly (body : Draft) : Nat → Draft
  | 0 => empty
  | 1 => body
  | n + 2 => seq body (exactly body (n + 1))

/-- The body at most as many times as given. -/
def atMost (greedy : Bool) (body : Draft) : Nat → Draft
  | 0 => empty
  | 1 => optional greedy body
  | n + 2 => optional greedy (seq body (atMost greedy body (n + 1)))

/-- The body any number of times. A body that may read nothing is entered before the junction is
reached, so that its own preferences come first. -/
def anyTimes (greedy nullable : Bool) (body : Draft) : Draft :=
  if nullable then optional greedy (loop greedy true body) else loop greedy false body

/-- The body as many times as a repetition allows. -/
def repeated (times : Times) (nullable : Bool) (body : Draft) : Draft :=
  match times.most, times.least with
  | none, 0 => anyTimes times.greedy nullable body
  | none, 1 => loop times.greedy true body
  | none, n + 2 => seq (exactly body (n + 1)) (loop times.greedy true body)
  | some most, 0 => atMost times.greedy body most
  | some most, least =>
    if most ≤ least then exactly body least
    else seq (exactly body least) (atMost times.greedy body (most - least))

end Draft

/-- The draft of a pattern. -/
def draft : Pattern → Draft
  | .empty => .empty
  | .one set => .one set
  | .start => fun n => (.start, n)
  | .finish => fun n => (.finish, n)
  | .seq first second => .seq first.draft second.draft
  | .alt preferred other => .alt preferred.draft other.draft
  | .group none body => body.draft
  | .group (some name) body => .group name body.draft
  | .repeated times body => .repeated times body.canBeEmpty body.draft

/-- The plan of a pattern, its places numbered from 0. -/
def plan (p : Pattern) : Plan := (p.draft 0).1

/-- The name under which a search remembers what the whole pattern has read. No group of a written
pattern can have it. -/
def whole : String := ""

/-- The draft of a search: the pattern behind as few characters as possible, so that the reading
preferred is the one that begins first. -/
def searchDraft (p : Pattern) : Draft :=
  .seq (.loop false false (.one .any)) (.group whole p.draft)

/-- The plan of a search for a pattern. -/
def searchPlan (p : Pattern) : Plan := (p.searchDraft 0).1

end TreeQuery.Pattern
