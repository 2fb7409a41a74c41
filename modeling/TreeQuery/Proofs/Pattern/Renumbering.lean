import TreeQuery.Proofs.Pattern.Liveness

/-! # Renumbering — a plan inside of a larger one

    The draft of a pattern starts where it is told to, so inside of a larger plan
    the places of the pattern have other numbers, and groups around it are still
    to be ended behind it. Neither changes how a front goes through it.

    * **Shifted plans**: the plan of a draft that starts further on.
    * **Fronts within groups**: the front of a plan on its own, as it looks inside
      of the larger plan. Every move commutes with this image.
    * **Reading within groups**: what the plan reads there is what it reads on its
      own, and the groups around it have read the same.
-/

namespace TreeQuery.Pattern

/-! ### Shifted plans -/

/-- A plan with all its places further on. -/
def Plan.shift (k : Nat) : Plan → Plan
  | .empty => .empty
  | .one place set => .one (place + k) set
  | .start => .start
  | .finish => .finish
  | .seq first second => .seq (first.shift k) (second.shift k)
  | .alt place preferred other => .alt (place + k) (preferred.shift k) (other.shift k)
  | .group name body => .group name (body.shift k)
  | .loop place greedy entered body => .loop (place + k) greedy entered (body.shift k)

/-- A draft that starts further on makes the same plan, its places further on. -/
def Draft.Uniform (d : Draft) : Prop :=
  ∀ n k, d (n + k) = ((d n).1.shift k, (d n).2 + k)

theorem Draft.compositional_uniform :
    Draft.Compositional (fun _ => True) Draft.Uniform where
  empty _ _ := rfl
  one set n k := by
    show (Plan.one (n + k) set, n + k + 1) = (Plan.one (n + k) set, n + 1 + k)
    rw [Nat.add_right_comm]
  start _ _ := rfl
  finish _ _ := rfl
  seq {d e} hd he n k := by
    show (Plan.seq (d (n + k)).1 (e (d (n + k)).2).1, (e (d (n + k)).2).2) = _
    rw [hd n k, he (d n).2 k]
    rfl
  alt {d e} hd he n k := by
    show (Plan.alt (n + k) (d (n + k + 1)).1 (e (d (n + k + 1)).2).1, (e (d (n + k + 1)).2).2) = _
    rw [Nat.add_right_comm, hd (n + 1) k, he (d (n + 1)).2 k]
    rfl
  group {name d} _ hd n k := by
    show (Plan.group name (d (n + k)).1, (d (n + k)).2) = _
    rw [hd n k]
    rfl
  loop greedy entered d hd n k := by
    show (Plan.loop (n + k) greedy entered (d (n + k + 1)).1, (d (n + k + 1)).2) = _
    rw [Nat.add_right_comm, hd (n + 1) k]
    rfl

/-- Wherever its draft starts, a pattern has its own plan, its places further on. -/
theorem draft_eq_shift (p : Pattern) (n : Nat) : (p.draft n).1 = p.plan.shift n := by
  have h := Draft.compositional_uniform.draft_of_forall (fun _ => trivial) p 0 n
  rw [Nat.zero_add] at h
  rw [h]
  rfl

/-! ### Fronts within groups -/

/-- A set of places, all of them further on. -/
def PlaceSet.shift (k : Nat) (s : PlaceSet) : PlaceSet := ⟨s.bits <<< k⟩

@[simp] theorem PlaceSet.contains_shift (k : Nat) (s : PlaceSet) (place : Nat) :
    (s.shift k).contains (place + k) = s.contains place := by
  simp [contains, shift, Nat.testBit_shiftLeft]

theorem PlaceSet.insert_shift (k : Nat) (s : PlaceSet) (place : Nat) :
    (s.shift k).insert (place + k) = (s.insert place).shift k := by
  simp [insert, shift, Nat.shiftLeft_or_distrib, Nat.shiftLeft_add]

/-- A task with all its places further on. -/
def Task.shift (k : Nat) : Task → Task
  | .read plan => .read (plan.shift k)
  | .close name began => .close name began

/-- A reading behind the end of one more group. -/
def Reading.closed (r : Reading) (name : String) (began : Nat) : Reading :=
  { r with marks := ⟨name, began, r.offset⟩ :: r.marks }

section

variable (k : Nat) (groups : List (String × Nat))

/-- The ends of groups, the innermost first, each with the offset at which the group began. -/
def Task.closing : List Task := groups.map fun g => .close g.1 g.2

/-- Tasks inside of a larger plan. -/
def Task.within (tasks : List Task) : List Task :=
  tasks.map (Task.shift k) ++ Task.closing groups

/-- A reading behind the ends of groups. -/
def Reading.within (r : Reading) : Reading :=
  groups.foldl (fun r g => r.closed g.1 g.2) r

/-- An attempt inside of a larger plan. -/
def Attempt.within (a : Attempt) : Attempt :=
  { a with after := Task.within k groups a.after }

/-- A front inside of a larger plan. -/
def Front.within (f : Front) : Front :=
  ⟨f.seen.shift k, f.waiting.map (Attempt.within k groups), f.finished.map (Reading.within groups)⟩

/-- A move does inside of a larger plan what another one does on its own. -/
def Move.Mirrors (inside alone : Move) : Prop :=
  ∀ (marks : List Mark) (f : Front),
    inside marks (f.within k groups) = (alone marks f).within k groups

end

section

variable {k : Nat} {groups : List (String × Nat)}

theorem Front.within_empty : Front.empty.within k groups = .empty := by
  simp [Front.within, Front.empty, PlaceSet.shift, PlaceSet.empty]

theorem Front.visit_within {f : Front} {place : Nat} {inside alone : Front → Front}
    (hgo : ∀ f : Front, inside (f.within k groups) = (alone f).within k groups) :
    (f.within k groups).visit (place + k) inside = (f.visit place alone).within k groups := by
  have hseen : (f.within k groups).seen.contains (place + k) = f.seen.contains place :=
    PlaceSet.contains_shift k f.seen place
  have hfinished : (f.within k groups).finished.isSome = f.finished.isSome := Option.isSome_map
  have hinsert : (f.within k groups).seen.insert (place + k) = (f.seen.insert place).shift k :=
    PlaceSet.insert_shift k f.seen place
  unfold Front.visit
  rw [hseen, hfinished, hinsert]
  split
  · rfl
  · exact hgo { f with seen := f.seen.insert place }

theorem Front.finish_within (f : Front) (r : Reading) :
    (f.within k groups).finish (r.within groups) = (f.finish r).within k groups := by
  have hfinished : (f.within k groups).finished.isSome = f.finished.isSome := Option.isSome_map
  unfold Front.finish
  rw [hfinished]
  split <;> rfl

theorem Move.mirrors_junction (place : Nat) (greedy : Bool) {round leave round' leave' : Move}
    (hround : Move.Mirrors k groups round' round)
    (hleave : Move.Mirrors k groups leave' leave) :
    Move.Mirrors k groups (junction (place + k) greedy round' leave')
      (junction place greedy round leave) := by
  intro marks f
  unfold junction
  apply Front.visit_within
  intro f
  cases greedy
  · simp only [Bool.false_eq_true, if_false]
    rw [hleave marks f, hround marks]
  · simp only [if_true]
    rw [hround marks f, hleave marks]

/-- Going through a shifted plan. -/
theorem Plan.mirrors_enter (spot : Spot) {p : Plan} {after : List Task} {inside alone : Move}
    (hgo : Move.Mirrors k groups inside alone) :
    Move.Mirrors k groups ((p.shift k).enter spot (Task.within k groups after) inside)
      (p.enter spot after alone) := by
  -- by induction on the plan: fronts are only asked for places, and these move together
  induction p generalizing after inside alone with
  | empty => exact hgo
  | one place set =>
    intro marks f
    exact Front.visit_within fun f => rfl
  | start =>
    intro marks f
    unfold shift enter
    split
    · exact hgo marks f
    · rfl
  | finish =>
    intro marks f
    unfold shift enter
    split
    · exact hgo marks f
    · rfl
  | seq first second ihf ihs => exact @ihf (.read second :: after) _ _ (ihs hgo)
  | alt place preferred other ihp iho =>
    intro marks f
    apply Front.visit_within
    intro f
    rw [ihp hgo marks f, iho hgo marks]
  | group name body ih => exact @ih (.close name spot.offset :: after) _ _ fun marks f => hgo _ f
  | loop place greedy entered body ih =>
    have hround := @ih (.read (.loop place greedy false body) :: after) giveUp giveUp
      fun _ _ => rfl
    have hjunction := Move.mirrors_junction place greedy hround hgo
    cases entered with
    | false => exact hjunction
    | true => exact @ih (.read (.loop place greedy false body) :: after) _ _ hjunction

/-- Ending groups remembers what they have read. -/
theorem follow_closing (spot : Spot) (groups : List (String × Nat)) (marks : List Mark)
    (f : Front) :
    follow spot (Task.closing groups) marks f =
      f.finish (Reading.within groups ⟨spot.offset, marks⟩) := by
  induction groups generalizing marks with
  | nil => rfl
  | cons g groups ih => exact ih (⟨g.1, g.2, spot.offset⟩ :: marks)

/-- Doing tasks inside of a larger plan. -/
theorem mirrors_follow (spot : Spot) (tasks : List Task) :
    Move.Mirrors k groups (follow spot (Task.within k groups tasks)) (follow spot tasks) := by
  induction tasks with
  | nil =>
    intro marks f
    show follow spot (Task.closing groups) marks (f.within k groups) = _
    rw [follow_closing]
    exact f.finish_within ⟨spot.offset, marks⟩
  | cons task after ih =>
    cases task with
    | read plan => exact Plan.mirrors_enter spot ih
    | close name began => exact fun marks f => ih _ f

/-! ### Reading within groups -/

theorem advance_within (spot : Spot) (x : Char) (waiting : List Attempt) :
    advance spot x (waiting.map (Attempt.within k groups)) =
      (advance spot x waiting).within k groups := by
  induction waiting with
  | nil => exact Front.within_empty.symm
  | cons a better ih =>
    rw [List.map_cons]
    unfold advance
    rw [ih]
    show (if a.set.contains x = true then _ else _) = _
    split
    · exact mirrors_follow spot a.after a.marks _
    · rfl

theorem bestFrom_within (offset : Nat) (f : Front) (known : Option Reading) (rest : List Char) :
    bestFrom offset (f.within k groups) (known.map (Reading.within groups)) rest =
      (bestFrom offset f known rest).map (Reading.within groups) := by
  have hbest : ∀ f : Front, ∀ known : Option Reading,
      (f.within k groups).finished.or (known.map (Reading.within groups)) =
        (f.finished.or known).map (Reading.within groups) := by
    intro f known
    exact Option.map_or.symm
  induction rest generalizing offset f known with
  | nil => exact hbest f known
  | cons x xs ih =>
    rw [bestFrom_cons, bestFrom_cons, hbest]
    show bestFrom _ (advance _ x (f.waiting.map (Attempt.within k groups))) _ xs = _
    rw [advance_within]
    exact ih _ _ _

end

end TreeQuery.Pattern
