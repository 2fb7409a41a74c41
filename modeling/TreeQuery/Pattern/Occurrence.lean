import TreeQuery.Pattern.Reading

/-! # Occurrences — where a pattern is found in a text

The occurrences of a pattern are found from left to right. The next one starts at the leftmost
place, not before the end of the one before it, where the pattern has a reading, and is the reading
preferred there. One search finds that place: it reads the pattern behind as few characters as
possible, all starts at once, so a text without an occurrence is read only once. An occurrence that
reads nothing may not stand exactly where the last one ended; the search then begins again one
character further on.
-/

namespace TreeQuery.Pattern

/-- One place where a pattern is found. -/
structure Occurrence where
  /-- The offset at which it starts. -/
  start : Nat
  /-- Where the pattern stopped and what its groups have read. -/
  reading : Reading
deriving DecidableEq, Repr

/-- The first occurrence in the rest of a text that starts at an offset, given the plan of the
search. -/
def Plan.search? (search : Plan) (offset : Nat) (rest : List Char) : Option Occurrence :=
  (search.best? offset rest).bind fun r => (r.mark? whole).map fun m => ⟨m.start, r⟩

/-- Whether an occurrence reads nothing where the one before it ended. -/
def Occurrence.repeatsEnd (o : Occurrence) (lastEnd : Option Nat) : Bool :=
  o.reading.offset = o.start ∧ lastEnd = some o.start

/-- The occurrences in the rest of a text, given the plan of the search, the offset at which the
rest starts, the offset at which the search goes on, and where the last occurrence ended. -/
def occurrencesFrom (search : Plan) (offset goOn : Nat) (lastEnd : Option Nat) :
    List Char → List Occurrence
  | [] =>
    if offset < goOn then []
    else ((search.search? offset []).filter fun o => !o.repeatsEnd lastEnd).toList
  | c :: cs =>
    let next := offset + c.utf8Size
    if offset < goOn then occurrencesFrom search next goOn lastEnd cs
    else
      match search.search? offset (c :: cs) with
      | none => []
      | some o =>
        if o.repeatsEnd lastEnd then occurrencesFrom search next next lastEnd cs
        else o :: occurrencesFrom search next o.reading.offset (some o.reading.offset) cs

/-- The occurrences of a pattern in a text, from left to right. -/
def occurrences (p : Pattern) (text : List Char) : List Occurrence :=
  occurrencesFrom p.searchPlan 0 0 none text

end TreeQuery.Pattern
