/-! # Patterns — what a piece of text may look like

A pattern describes the texts that a scanner looks for. It is built from sets of characters by
sequence, ordered choice and repetition; a named group remembers which part of the text its body
read. Choice and repetition are ordered: a pattern does not only say which texts it accepts but
also which reading of a text it prefers.
-/

namespace TreeQuery

/-! ### Sets of characters -/

/-- The characters inside some ranges, both ends included, or all characters outside of them. -/
structure CharSet where
  negated : Bool
  ranges : List (Char × Char)
deriving DecidableEq, Repr

namespace CharSet

/-- The set of one character. -/
def single (c : Char) : CharSet := ⟨false, [(c, c)]⟩

/-- Every character. -/
def any : CharSet := ⟨true, []⟩

/-- Every character but the line feed. -/
def notNewline : CharSet := ⟨true, [('\n', '\n')]⟩

/-- Adds a range to a list of ranges in increasing order, joining it with those that it touches. -/
def insertRange (r : Char × Char) : List (Char × Char) → List (Char × Char)
  | [] => [r]
  | s :: rest =>
    if r.2.toNat + 1 < s.1.toNat then r :: s :: rest
    else if s.2.toNat + 1 < r.1.toNat then s :: insertRange r rest
    else insertRange (if r.1 ≤ s.1 then r.1 else s.1, if r.2 ≤ s.2 then s.2 else r.2) rest

/-- The set of the characters inside some ranges, or of those outside, with the ranges in
increasing order and apart from one another. -/
def ofRanges (negated : Bool) (ranges : List (Char × Char)) : CharSet :=
  ⟨negated, ranges.foldr insertRange []⟩

/-- Whether some range of a list holds the character. -/
def inRanges (c : Char) (ranges : List (Char × Char)) : Bool :=
  ranges.any fun range => range.1 ≤ c && c ≤ range.2

/-- Whether the set holds the character. -/
@[inline] def contains (set : CharSet) (c : Char) : Bool :=
  inRanges c set.ranges != set.negated

@[simp] theorem contains_single (c d : Char) : (single c).contains d = (d == c) := by
  rw [Bool.eq_iff_iff]
  simp only [contains, single, inRanges, List.any_cons, List.any_nil, Bool.or_false]
  simp only [Bool.bne_false, Bool.and_eq_true, decide_eq_true_eq, beq_iff_eq]
  constructor
  · rintro ⟨hcd, hdc⟩
    exact Char.le_antisymm hdc hcd
  · rintro rfl
    exact ⟨Char.le_refl d, Char.le_refl d⟩

end CharSet

/-! ### Patterns -/

/-- How often the body of a repetition is read: at least `least` times and, if there is a bound,
at most `most` times. A greedy repetition prefers one more time to stopping. -/
structure Times where
  least : Nat
  most : Option Nat
  greedy : Bool
deriving DecidableEq, Repr

/-- At most once, and not at all only where that was allowed before. -/
def Times.capped (t : Times) : Times :=
  { t with least := min t.least 1, most := some (min (t.most.getD 1) 1) }

/-- A description of texts that says which reading it prefers. -/
inductive Pattern where
  /-- Reads nothing. -/
  | empty
  /-- Reads one character of a set. -/
  | one (set : CharSet)
  /-- Reads nothing, at the start of the text only. -/
  | start
  /-- Reads nothing, at the end of the text only. -/
  | finish
  /-- Reads what `first` reads, then what `second` reads. -/
  | seq (first second : Pattern)
  /-- Reads what `preferred` reads, or else what `other` reads. -/
  | alt (preferred other : Pattern)
  /-- Reads what the body reads and remembers it under the name, if it has one. -/
  | group (name : Option String) (body : Pattern)
  /-- Reads what the body reads, several times. -/
  | repeated (times : Times) (body : Pattern)
deriving DecidableEq, Repr

namespace Pattern

/-- Whether a pattern can never read a character. -/
def isBlank : Pattern → Bool
  | .empty | .start | .finish => true
  | .one _ => false
  | .seq first second => first.isBlank && second.isBlank
  | .alt preferred other => preferred.isBlank && other.isBlank
  | .group _ body => body.isBlank
  | .repeated _ body => body.isBlank

/-- Whether a pattern may succeed without reading a character. -/
def canBeEmpty : Pattern → Bool
  | .empty | .start | .finish => true
  | .one _ => false
  | .seq first second => first.canBeEmpty && second.canBeEmpty
  | .alt preferred other => preferred.canBeEmpty || other.canBeEmpty
  | .group _ body => body.canBeEmpty
  | .repeated times body => times.least == 0 || body.canBeEmpty

/-- Whether a pattern has a group inside, with or without a name. -/
def hasGroup : Pattern → Bool
  | .empty | .one _ | .start | .finish => false
  | .seq first second => first.hasGroup || second.hasGroup
  | .alt preferred other => preferred.hasGroup || other.hasGroup
  | .group _ _ => true
  | .repeated _ body => body.hasGroup

/-! ### Putting patterns together -/

/-- The patterns that a pattern reads one after another. -/
def parts : Pattern → List Pattern
  | .empty => []
  | .seq first second => first.parts ++ second.parts
  | p => [p]

/-- One pattern after another, none of them a sequence. -/
def chain : List Pattern → Pattern
  | [] => .empty
  | [p] => p
  | p :: q :: ps => .seq p (chain (q :: ps))

/-- One pattern after another. -/
def sequence (ps : List Pattern) : Pattern := chain (ps.flatMap parts)

/-- One pattern or else another, the first preferred. A choice of none is the empty pattern. -/
def firstOf : List Pattern → Pattern
  | [] => .empty
  | [p] => p
  | p :: q :: ps => .alt p (firstOf (q :: ps))

/-- The ranges of a set that is given by what it holds. -/
def ranges? : Pattern → Option (List (Char × Char))
  | .one ⟨false, ranges⟩ => some ranges
  | _ => none

/-- Whether a pattern reads one particular character. -/
def isLetter : Pattern → Bool
  | .one ⟨false, [(low, high)]⟩ => low == high
  | _ => false

/-- The parts of a sequence with neighbouring letters taken together. -/
def units : List Pattern → List (List Pattern)
  | [] => []
  | p :: ps =>
    match units ps with
    | (q :: qs) :: more =>
      if p.isLetter && q.isLetter then (p :: q :: qs) :: more else [p] :: (q :: qs) :: more
    | more => [p] :: more

/-- The common beginning of two lists of units, as far as it has no groups inside. -/
def sharedWith : List (List Pattern) → List (List Pattern) → List (List Pattern)
  | u :: us, v :: vs => if u = v && !u.any hasGroup then u :: sharedWith us vs else []
  | _, _ => []

/-- The common beginning of all alternatives of a choice. Only an alternative of two units or more
has a beginning. -/
def sharedLead : List (List (List Pattern)) → List (List Pattern)
  | [] => []
  | branch :: branches =>
    if (branch :: branches).any (·.length < 2) then [] else branches.foldl sharedWith branch

/-- One pattern or else another, the first preferred. A choice between characters is one set, and
what all alternatives begin with is read before the choice is made. -/
def choice : List Pattern → Pattern
  | [] => .empty
  | [p] => p
  | p :: q :: ps =>
    let ps := p :: q :: ps
    let branches := ps.map fun p => units p.parts
    match ps.mapM ranges?, sharedLead branches with
    | some ranges, _ => .one (.ofRanges false ranges.flatten)
    | none, [] => firstOf ps
    | none, lead =>
      sequence (lead.flatten ++ [firstOf (branches.map fun us => chain (us.drop lead.length).flatten)])

/-- A pattern read several times. A body that never reads a character is read once at most. -/
def repetition (times : Times) (body : Pattern) : Pattern :=
  let times := if body.isBlank then times.capped else times
  if times.most = some 0 then .empty
  else if times.least = 1 ∧ times.most = some 1 then body
  else .repeated times body

/-! ### Faults of a written pattern -/

/-- Why a text is not a pattern. -/
inductive Fault where
  /-- A group is opened and never closed. -/
  | unclosedGroup
  /-- A parenthesis closes no group. -/
  | unopenedGroup
  /-- A set of characters is opened and never closed. -/
  | unclosedSet
  /-- A set of characters uses a form that this notation does not have. -/
  | unsupportedSet
  /-- A range of characters ends before it starts. -/
  | emptyRange
  /-- A repetition has no body. -/
  | nothingToRepeat
  /-- The bounds of a repetition are not two numbers in order. -/
  | badBounds
  /-- A group has a name that is no name, or no name where one is announced. -/
  | badGroupName
  /-- Two groups have one name. -/
  | repeatedGroupName (name : String)
  /-- The text after `(?` opens no group. -/
  | unknownGroup
  /-- A backslash stands before nothing, or before a character it gives no meaning. -/
  | badEscape
  /-- Groups, repetitions, choices and sequences stand inside one another too often. -/
  | tooDeep
  /-- There is no room for the pattern once it is compiled. -/
  | tooLarge
deriving DecidableEq, Repr

/-- What is wrong, in words. -/
def Fault.message : Fault → String
  | .unclosedGroup => "unclosed group"
  | .unopenedGroup => "unopened group"
  | .unclosedSet => "unclosed character set"
  | .unsupportedSet => "unsupported form of character set"
  | .emptyRange => "character range ends before it starts"
  | .nothingToRepeat => "repetition of nothing"
  | .badBounds => "invalid bounds of a repetition"
  | .badGroupName => "invalid group name"
  | .repeatedGroupName name => "group name " ++ name ++ " is used twice"
  | .unknownGroup => "unknown kind of group"
  | .badEscape => "invalid escape"
  | .tooDeep => "pattern is nested too deeply"
  | .tooLarge => "pattern is too large"

end Pattern

end TreeQuery
