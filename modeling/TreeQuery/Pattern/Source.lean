import TreeQuery.Pattern.Lexeme

/-! # Written patterns — from signs to a pattern

The signs of a written pattern are put together by one pass that keeps the groups still open, the
innermost first. An open group holds its finished alternatives and the parts of the alternative
being read, both latest first. A mark of repetition takes the part before it; a bar ends an
alternative; a closing parenthesis turns the innermost group into a part of the one around it. At
the end exactly the outermost frame, which stands for the whole pattern, must be open. A pattern
that is nested too deeply is refused.

A few signs can spell a pattern with millions of places. How much room such a pattern takes is not
to be seen here: it depends on what a pattern is compiled to. So compiling takes a test that says
which texts there is room for.
-/

namespace TreeQuery.Pattern

/-! ### Parts and their depth -/

/-- A pattern together with the depth of its written form: how many groups, repetitions, sets,
choices and sequences stand inside one another there. -/
structure Part where
  pattern : Pattern
  depth : Nat

/-- How deep a written pattern may be. -/
def maxDepth : Nat := 250

namespace Part

/-- A set in brackets. A list of several members is one level deeper than a single one. -/
def ofSet (set : CharSet) (members : Nat) : Part :=
  ⟨.one set, if members < 2 then 1 else 2⟩

/-- The depth of something that is made of parts, none of which is deeper. -/
def depthOver (parts : List Part) : Nat :=
  if parts.length < 2 then parts.foldr (fun p d => max p.depth d) 0
  else 1 + parts.foldr (fun p d => max p.depth d) 0

/-- One part after another. -/
def sequence (parts : List Part) : Part :=
  ⟨Pattern.sequence (parts.map (·.pattern)), depthOver parts⟩

/-- One part or else another. -/
def choice (parts : List Part) : Part :=
  ⟨Pattern.choice (parts.map (·.pattern)), depthOver parts⟩

/-- A part read several times. -/
def repetition (times : Times) (body : Part) : Part :=
  ⟨Pattern.repetition times body.pattern, body.depth + 1⟩

end Part

/-! ### Open groups -/

/-- A group still open while a pattern is read. -/
structure Frame where
  /-- What kind of group it is. -/
  kind : GroupKind
  /-- The finished alternatives, latest first. -/
  branches : List Part
  /-- The parts of the alternative being read, latest first. -/
  parts : List Part

namespace Frame

/-- A group that has just been opened. -/
def opened (kind : GroupKind) : Frame := ⟨kind, [], []⟩

/-- Adds a part to the alternative being read. -/
def add (f : Frame) (p : Part) : Frame := { f with parts := p :: f.parts }

/-- Ends the alternative being read and starts the next. -/
def bar (f : Frame) : Frame :=
  { f with branches := .sequence f.parts.reverse :: f.branches, parts := [] }

/-- Wraps the last part into a repetition. -/
def repeatLast (f : Frame) (times : Times) : Except Fault Frame :=
  match f.parts with
  | [] => .error .nothingToRepeat
  | p :: ps => .ok { f with parts := .repetition times p :: ps }

/-- The choice between the alternatives of the group. -/
def body (f : Frame) : Part :=
  .choice (.sequence f.parts.reverse :: f.branches).reverse

/-- The part that the group stands for once it is closed. -/
def close (f : Frame) : Part :=
  let body := f.body
  match f.kind with
  | .plain => ⟨body.pattern, body.depth + 1⟩
  | .remembered name => ⟨.group name body.pattern, body.depth + 1⟩

end Frame

/-! ### Reading the signs -/

/-- A pattern being read: the innermost open group, the groups around it from the inside out, and
the group names already used. -/
structure Builder where
  inner : Frame
  outer : List Frame
  names : List String

namespace Builder

/-- Nothing has been read yet. -/
def initial : Builder := ⟨.opened .plain, [], []⟩

/-- Adds a part to the innermost group. -/
def add (b : Builder) (p : Part) : Builder := { b with inner := b.inner.add p }

/-- Opens a group. -/
def enter (b : Builder) (kind : GroupKind) : Builder :=
  { b with inner := .opened kind, outer := b.inner :: b.outer }

/-- Takes one sign. -/
def step (b : Builder) : Lexeme → Except Fault Builder
  | .char set => .ok (b.add ⟨.one set, 0⟩)
  | .set set members => .ok (b.add (.ofSet set members))
  | .start => .ok (b.add ⟨.start, 0⟩)
  | .finish => .ok (b.add ⟨.finish, 0⟩)
  | .bar => .ok { b with inner := b.inner.bar }
  | .times times => (b.inner.repeatLast times).map fun inner => { b with inner }
  | .opening (.remembered (some name)) =>
    if name ∈ b.names then .error (.repeatedGroupName name)
    else .ok { b.enter (.remembered (some name)) with names := name :: b.names }
  | .opening kind => .ok (b.enter kind)
  | .closing =>
    match b.outer with
    | [] => .error .unopenedGroup
    | f :: fs => .ok { b with inner := f.add b.inner.close, outer := fs }

/-- The whole pattern, if no group is open any more and it is not too deep. -/
def finish (b : Builder) : Except Fault Pattern :=
  match b.outer with
  | [] =>
    let whole := b.inner.body
    if maxDepth < whole.depth then .error .tooDeep else .ok whole.pattern
  | _ :: _ => .error .unclosedGroup

end Builder

/-- The pattern that a list of signs spells. -/
def ofLexemes (lexemes : List Lexeme) : Except Fault Pattern := do
  let b ← lexemes.foldlM Builder.step Builder.initial
  b.finish

/-- The pattern that a text spells. -/
def read (cs : List Char) : Except Fault Pattern := do
  let lexemes ← Lexeme.read cs
  ofLexemes lexemes

/-- The pattern that a string spells. -/
def ofString (s : String) : Except Fault Pattern := read s.toList

/-! ### Room -/

/-- The room that there is for compiled patterns. -/
structure Room where
  /-- Whether there is room for the pattern that a text spells. -/
  fits : String → Bool

/-- Room for every pattern. -/
def Room.unlimited : Room := ⟨fun _ => true⟩

/-- Compiles a text: the pattern that it spells, if there is room for it. -/
def compile (room : Room) (source : String) : Except Fault Pattern := do
  let p ← ofString source
  if room.fits source then .ok p else .error .tooLarge

theorem compile_of_fits {room : Room} {source : String} (h : room.fits source = true) :
    compile room source = ofString source := by
  unfold compile
  cases ofString source with
  | error fault => rfl
  | ok p => exact if_pos h

theorem compile_of_not_fits {room : Room} {source : String} {p : Pattern}
    (hp : ofString source = .ok p) (h : room.fits source = false) :
    compile room source = .error .tooLarge := by
  unfold compile
  rw [hp]
  exact if_neg (Bool.eq_false_iff.mp h)

theorem compile_of_error (room : Room) {source : String} {fault : Fault}
    (h : ofString source = .error fault) : compile room source = .error fault := by
  unfold compile
  rw [h]
  rfl

end TreeQuery.Pattern
