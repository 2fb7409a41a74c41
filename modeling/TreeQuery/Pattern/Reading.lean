import TreeQuery.Pattern.Plan

/-! # Readings — how a plan reads a text

A plan reads a text character by character with a *front*: the attempts that wait for the next
character, best first. From one character to the next every attempt whose set holds the character
goes on through the plan until it waits again or reaches the end. An attempt that reaches a place
which a better one has reached at the same offset is dropped, as nothing that follows could make it
the better one. An attempt that reaches the end of the plan drops all worse ones; a better one that
is still under way may replace it later.

The rule about places also ends the loops whose bodies read nothing: an attempt that comes back to
a place without having read a character is dropped like any other late visitor. It is a rule about
places and not about rounds, so such a loop gives up the choices that are still open inside its
body at that offset until everything after the loop has been tried.

Going through the plan follows its structure, and reading a text follows the text; the time that a
text takes is at most its length times the number of places.
-/

namespace TreeQuery.Pattern

/-! ### Sets of places -/

/-- A finite set of places, kept as the bits of a number. -/
structure PlaceSet where
  bits : Nat

namespace PlaceSet

/-- The set without members. -/
def empty : PlaceSet := ⟨0⟩

/-- Whether a place is in the set. -/
def contains (s : PlaceSet) (place : Nat) : Bool := s.bits.testBit place

/-- The set with one more place. -/
def insert (s : PlaceSet) (place : Nat) : PlaceSet := ⟨s.bits ||| 1 <<< place⟩

@[simp] theorem contains_empty (place : Nat) : empty.contains place = false := by
  simp [contains, empty]

@[simp] theorem contains_insert (s : PlaceSet) (a b : Nat) :
    (s.insert a).contains b = (s.contains b || decide (a = b)) := by
  rw [contains, insert, Nat.testBit_or, Nat.one_shiftLeft, Nat.testBit_two_pow]
  rfl

end PlaceSet

/-! ### Readings -/

/-- What a named group has read. -/
structure Mark where
  name : String
  start : Nat
  stop : Nat
deriving DecidableEq, Repr

/-- How far a plan has read a text when it came to its end. -/
structure Reading where
  /-- The offset reached, in bytes. -/
  offset : Nat
  /-- What the named groups have read, the latest first. -/
  marks : List Mark
deriving DecidableEq, Repr

/-- What a group has read last, if it has taken part. -/
def Reading.mark? (r : Reading) (name : String) : Option Mark :=
  r.marks.find? fun m => m.name == name

/-! ### Fronts -/

/-- One thing that an attempt has still to do. -/
inductive Task where
  /-- Read what a plan reads. -/
  | read (plan : Plan)
  /-- End the group that was begun at an offset. -/
  | close (name : String) (began : Nat)
deriving DecidableEq, Repr

/-- An attempt that waits for a character. -/
structure Attempt where
  /-- The characters it can go on with. -/
  set : CharSet
  /-- What it has to do afterwards. -/
  after : List Task
  /-- What the named groups have read so far, the latest first. -/
  marks : List Mark
deriving DecidableEq, Repr

/-- What the attempts at one offset have come to. -/
structure Front where
  /-- The places reached. -/
  seen : PlaceSet
  /-- The attempts that wait for the next character, the worst first. -/
  waiting : List Attempt
  /-- The reading that has reached the end of the plan. -/
  finished : Option Reading

namespace Front

/-- Nothing has been attempted yet. -/
def empty : Front := ⟨.empty, [], none⟩

/-- Goes on from a place, unless a better attempt has been there or has reached the end. -/
@[inline] def visit (f : Front) (place : Nat) (go : Front → Front) : Front :=
  if f.finished.isSome || f.seen.contains place then f
  else go { f with seen := f.seen.insert place }

/-- Adds an attempt that waits for a character. It is worse than those already there. -/
@[inline] def wait (f : Front) (attempt : Attempt) : Front :=
  { f with waiting := attempt :: f.waiting }

/-- Reaches the end of the plan, unless a better attempt has. -/
def finish (f : Front) (r : Reading) : Front :=
  if f.finished.isSome then f else { f with finished := some r }

end Front

/-! ### Going through a plan -/

/-- A place in a text: its offset, and whether the text ends there. -/
structure Spot where
  offset : Nat
  atEnd : Bool
deriving DecidableEq, Repr

/-- What an attempt does to a front, given what its groups have read. -/
abbrev Move : Type := List Mark → Front → Front

/-- Gives an attempt up. -/
def giveUp : Move := fun _ f => f

/-- At the junction of a loop: one more round or leaving the loop, the former preferred if the loop
is greedy. -/
@[inline] def junction (place : Nat) (greedy : Bool) (round leave : Move) : Move := fun marks f =>
  f.visit place fun f =>
    if greedy then leave marks (round marks f) else round marks (leave marks f)

/-- Goes through a plan from a spot of a text. The tasks `after` come after the plan, and `go` does
them at the same spot. -/
def Plan.enter (spot : Spot) : Plan → List Task → Move → List Mark → Front → Front
  | .empty, _, go, marks, f => go marks f
  | .one place set, after, _, marks, f => f.visit place fun f => f.wait ⟨set, after, marks⟩
  | .start, _, go, marks, f => if spot.offset = 0 then go marks f else f
  | .finish, _, go, marks, f => if spot.atEnd then go marks f else f
  | .seq first second, after, go, marks, f =>
    first.enter spot (.read second :: after) (second.enter spot after go) marks f
  | .alt place preferred other, after, go, marks, f =>
    f.visit place fun f =>
      other.enter spot after go marks (preferred.enter spot after go marks f)
  | .group name body, after, go, marks, f =>
    body.enter spot (.close name spot.offset :: after)
      (fun marks => go (⟨name, spot.offset, spot.offset⟩ :: marks)) marks f
  | .loop place greedy entered body, after, go, marks, f =>
    let again := .read (.loop place greedy false body) :: after
    if entered then
      body.enter spot again (junction place greedy (body.enter spot again giveUp) go) marks f
    else junction place greedy (body.enter spot again giveUp) go marks f

/-- Does the tasks of an attempt until it waits for a character, is dropped, or has reached the end
of the plan. -/
def follow (spot : Spot) : List Task → Move
  | [], marks, f => f.finish ⟨spot.offset, marks⟩
  | .read plan :: after, marks, f => plan.enter spot after (follow spot after) marks f
  | .close name began :: after, marks, f =>
    follow spot after (⟨name, began, spot.offset⟩ :: marks) f

/-! ### Reading a text -/

/-- The front behind a character, given the attempts that waited for it, the worst first. -/
def advance (spot : Spot) (c : Char) : List Attempt → Front
  | [] => .empty
  | a :: better =>
    let f := advance spot c better
    if a.set.contains c then follow spot a.after a.marks f else f

/-- The best reading of a text from an offset on, given the front there and the best reading known
so far, which is worse than all attempts of the front. -/
def bestFrom (offset : Nat) (f : Front) (known : Option Reading) : List Char → Option Reading
  | [] => f.finished.or known
  | c :: cs =>
    let known := f.finished.or known
    if f.waiting.isEmpty then known
    else
      let offset := offset + c.utf8Size
      bestFrom offset (advance ⟨offset, cs.isEmpty⟩ c f.waiting) known cs

/-- The reading that a plan prefers of the text from an offset on. -/
def Plan.best? (p : Plan) (offset : Nat) (rest : List Char) : Option Reading :=
  bestFrom offset (follow ⟨offset, rest.isEmpty⟩ [.read p] [] .empty) none rest

end TreeQuery.Pattern
