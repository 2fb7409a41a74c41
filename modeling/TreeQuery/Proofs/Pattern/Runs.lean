import TreeQuery.Proofs.Pattern.Reader

/-! # Runs — a front reports only what a plan may read

    Which reading a front prefers depends on the places it has seen, and loops
    whose bodies read nothing make that hard to tell. Here the order is left
    aside: whatever a front reports is something that its plan may read at all.
    That holds of every plan, whether its places are numbered apart or not and
    whether its loops read something or not.

    * **Runs**: a relation between cursors, one rule for each way to go through a
      plan or through the tasks of an attempt.
    * **Honest fronts**: every attempt that waits, and the reading that has
      finished, leads to a goal. Each move of a front keeps it honest.
    * **Reading**: the preferred reading of a plan is the end of one of its runs.
-/

namespace TreeQuery.Pattern

/-! ### Runs -/

/-- The plan may lead from one cursor to another. -/
inductive Plan.Admits : Plan → Cursor → Cursor → Prop where
  | empty (c : Cursor) : Admits .empty c c
  | one {place : Nat} {set : CharSet} {x : Char} (offset : Nat) (xs : List Char)
      (marks : List Mark) : set.contains x = true →
      Admits (.one place set) ⟨offset, x :: xs, marks⟩ ⟨offset + x.utf8Size, xs, marks⟩
  | start {c : Cursor} : c.offset = 0 → Admits .start c c
  | finish {c : Cursor} : c.rest = [] → Admits .finish c c
  | seq {first second : Plan} {c d e : Cursor} :
      Admits first c d → Admits second d e → Admits (.seq first second) c e
  | preferred {place : Nat} {preferred other : Plan} {c d : Cursor} :
      Admits preferred c d → Admits (.alt place preferred other) c d
  | other {place : Nat} {preferred other : Plan} {c d : Cursor} :
      Admits other c d → Admits (.alt place preferred other) c d
  | group {name : String} {body : Plan} {c d : Cursor} :
      Admits body c d → Admits (.group name body) c (d.mark name c.offset)
  /-- A loop may be left at its junction, -/
  | leave {place : Nat} {greedy : Bool} {body : Plan} (c : Cursor) :
      Admits (.loop place greedy false body) c c
  /-- and one more round brings it back to its junction. -/
  | round {place : Nat} {greedy entered : Bool} {body : Plan} {c d e : Cursor} :
      Admits body c d → Admits (.loop place greedy false body) d e →
      Admits (.loop place greedy entered body) c e

/-- Doing some tasks may lead from one cursor to another. -/
inductive Task.Admits : List Task → Cursor → Cursor → Prop where
  | nil (c : Cursor) : Admits [] c c
  | read {plan : Plan} {after : List Task} {c d e : Cursor} :
      plan.Admits c d → Admits after d e → Admits (.read plan :: after) c e
  | close {name : String} {began : Nat} {after : List Task} {c e : Cursor} :
      Admits after (c.mark name began) e → Admits (.close name began :: after) c e

/-- The plan has no groups. -/
def Plan.Nameless : Plan → Prop
  | .empty | .one _ _ | .start | .finish => True
  | .seq first second => first.Nameless ∧ second.Nameless
  | .alt _ preferred other => preferred.Nameless ∧ other.Nameless
  | .group _ _ => False
  | .loop _ _ _ body => body.Nameless

/-- Without groups nothing is marked. -/
theorem Plan.Admits.marks_eq {p : Plan} {c c' : Cursor} (h : p.Admits c c')
    (hp : p.Nameless) : c'.marks = c.marks := by
  induction h with
  | empty | one | start | finish | leave => rfl
  | seq _ _ ih ih' => exact (ih' hp.2).trans (ih hp.1)
  | preferred _ ih => exact ih hp.1
  | other _ ih => exact ih hp.2
  | group _ _ => exact hp.elim
  | round _ _ ih ih' => exact (ih' hp).trans (ih hp)

/-! ### Honest fronts -/

section

variable (goal : Cursor → Prop)

/-- However the tasks are done, the goal is met. -/
def Task.LeadsTo (tasks : List Task) (c : Cursor) : Prop :=
  ∀ e, Task.Admits tasks c e → goal e

variable (offset : Nat) (rest : List Char)

/-- Whatever a front at a place of the text will report meets the goal. -/
structure Front.Honest (f : Front) : Prop where
  waiting : ∀ a ∈ f.waiting, ∀ x xs, rest = x :: xs → a.set.contains x = true →
    Task.LeadsTo goal a.after ⟨offset + x.utf8Size, xs, a.marks⟩
  finished : ∀ r, f.finished = some r → ∃ c, goal c ∧ c.reading = r

/-- A move keeps fronts honest if all it does is to do some tasks that lead to the goal. -/
def Move.Honest (move : Move) (tasks : List Task) : Prop :=
  ∀ marks f, Task.LeadsTo goal tasks ⟨offset, rest, marks⟩ →
    f.Honest goal offset rest → (move marks f).Honest goal offset rest

end

section

variable {goal : Cursor → Prop} {offset : Nat} {rest : List Char}

theorem Front.honest_empty : Front.empty.Honest goal offset rest where
  waiting _ ha := absurd ha List.not_mem_nil
  finished _ hr := nomatch hr

/-- The places seen do not matter. -/
theorem Front.Honest.visit {f : Front} (hf : f.Honest goal offset rest) (place : Nat)
    {go : Front → Front}
    (hgo : ∀ g : Front, g.Honest goal offset rest → (go g).Honest goal offset rest) :
    (f.visit place go).Honest goal offset rest := by
  unfold Front.visit
  split
  · exact hf
  · apply hgo
    exact ⟨hf.waiting, hf.finished⟩

theorem Front.Honest.wait {f : Front} (hf : f.Honest goal offset rest) {place : Nat}
    {set : CharSet} {after : List Task} {marks : List Mark}
    (hleads : Task.LeadsTo goal (.read (.one place set) :: after) ⟨offset, rest, marks⟩) :
    (f.wait ⟨set, after, marks⟩).Honest goal offset rest := by
  refine ⟨?_, hf.finished⟩
  intro a ha x xs hrest hx
  rcases List.mem_cons.mp ha with rfl | ha
  · intro e he
    rw [hrest] at hleads
    exact hleads e (.read (.one offset xs marks hx) he)
  · exact hf.waiting a ha x xs hrest hx

theorem Front.Honest.finish {f : Front} (hf : f.Honest goal offset rest) {marks : List Mark}
    (hgoal : goal ⟨offset, rest, marks⟩) :
    (f.finish ⟨offset, marks⟩).Honest goal offset rest := by
  unfold Front.finish
  split
  · exact hf
  · refine ⟨hf.waiting, ?_⟩
    intro r hr
    have hreading : (⟨offset, marks⟩ : Reading) = r := Option.some.inj hr
    exact ⟨_, hgoal, hreading⟩

theorem Move.honest_giveUp (tasks : List Task) : Move.Honest goal offset rest giveUp tasks :=
  fun _ _ _ hf => hf

/-- At the junction of a loop both ways are honest. -/
theorem Move.honest_junction (place : Nat) (greedy : Bool) {body : Plan} {after : List Task}
    {round leave : Move}
    (hround : Move.Honest goal offset rest round
      (.read body :: .read (.loop place greedy false body) :: after))
    (hleave : Move.Honest goal offset rest leave after) :
    Move.Honest goal offset rest (junction place greedy round leave)
      (.read (.loop place greedy false body) :: after) := by
  intro marks f hleads hf
  have hgoRound : Task.LeadsTo goal (.read body :: .read (.loop place greedy false body) :: after)
      ⟨offset, rest, marks⟩ := by
    intro e he
    cases he with
    | read hbody he =>
      cases he with
      | read hloop he => exact hleads e (.read (.round hbody hloop) he)
  have hgoLeave : Task.LeadsTo goal after ⟨offset, rest, marks⟩ :=
    fun e he => hleads e (.read (.leave _) he)
  unfold junction
  apply hf.visit
  intro g hg
  cases greedy
  · exact hround marks _ hgoRound (hleave marks g hgoLeave hg)
  · exact hleave marks _ hgoLeave (hround marks g hgoRound hg)

/-- Going through a plan is honest if going on behind it is. -/
theorem Plan.enter_honest {p : Plan} {after : List Task} {go : Move}
    (hgo : Move.Honest goal offset rest go after) :
    Move.Honest goal offset rest (p.enter ⟨offset, rest.isEmpty⟩ after go) (.read p :: after) := by
  -- by induction on the plan: what leads to the goal with the plan does so with its parts
  induction p generalizing after go with
  | empty =>
    intro marks f hleads hf
    exact hgo marks f (fun e he => hleads e (.read (.empty _) he)) hf
  | one place set =>
    intro marks f hleads hf
    exact hf.visit place fun g hg => hg.wait hleads
  | start =>
    intro marks f hleads hf
    unfold enter
    split
    · next hzero => exact hgo marks f (fun e he => hleads e (.read (.start hzero) he)) hf
    · exact hf
  | finish =>
    intro marks f hleads hf
    unfold enter
    split
    · next hend =>
      have hnil : rest = [] := List.isEmpty_iff.mp hend
      exact hgo marks f (fun e he => hleads e (.read (.finish hnil) he)) hf
    · exact hf
  | seq first second ihf ihs =>
    intro marks f hleads hf
    refine ihf (ihs hgo) marks f ?_ hf
    intro e he
    cases he with
    | read hfirst he =>
      cases he with
      | read hsecond he => exact hleads e (.read (.seq hfirst hsecond) he)
  | alt place preferred other ihp iho =>
    intro marks f hleads hf
    have hpreferred : Task.LeadsTo goal (.read preferred :: after) ⟨offset, rest, marks⟩ := by
      intro e he
      cases he with
      | read hp he => exact hleads e (.read (.preferred hp) he)
    have hother : Task.LeadsTo goal (.read other :: after) ⟨offset, rest, marks⟩ := by
      intro e he
      cases he with
      | read ho he => exact hleads e (.read (.other ho) he)
    exact hf.visit place fun g hg =>
      iho hgo marks _ hother (ihp hgo marks g hpreferred hg)
  | group name body ih =>
    intro marks f hleads hf
    have hclose : Move.Honest goal offset rest
        (fun marks => go (⟨name, offset, offset⟩ :: marks)) (.close name offset :: after) := by
      intro marks f hleads hf
      exact hgo _ f (fun e he => hleads e (.close he)) hf
    refine ih hclose marks f ?_ hf
    intro e he
    cases he with
    | read hbody he =>
      cases he with
      | close he => exact hleads e (.read (.group hbody) he)
  | loop place greedy entered body ih =>
    -- a round that comes back without having read a character is given up
    have hround := ih (Move.honest_giveUp (.read (.loop place greedy false body) :: after))
    have hjunction := Move.honest_junction place greedy hround hgo
    cases entered with
    | false => exact hjunction
    | true =>
      intro marks f hleads hf
      refine ih hjunction marks f ?_ hf
      intro e he
      cases he with
      | read hbody he =>
        cases he with
        | read hloop he => exact hleads e (.read (.round hbody hloop) he)

/-- Doing the tasks of an attempt is honest. -/
theorem follow_honest (tasks : List Task) :
    Move.Honest goal offset rest (follow ⟨offset, rest.isEmpty⟩ tasks) tasks := by
  induction tasks with
  | nil =>
    intro marks f hleads hf
    exact hf.finish (hleads _ (.nil _))
  | cons task after ih =>
    cases task with
    | read plan => exact Plan.enter_honest ih
    | close name began =>
      intro marks f hleads hf
      exact ih _ f (fun e he => hleads e (.close he)) hf

/-! ### Reading a text -/

/-- Behind a character a front is honest if the attempts that waited for it were. -/
theorem advance_honest {x : Char} {waiting : List Attempt}
    (hwaiting : ∀ a ∈ waiting, a.set.contains x = true →
      Task.LeadsTo goal a.after ⟨offset, rest, a.marks⟩) :
    (advance ⟨offset, rest.isEmpty⟩ x waiting).Honest goal offset rest := by
  induction waiting with
  | nil => exact Front.honest_empty
  | cons a better ih =>
    have hbetter := ih fun b hb => hwaiting b (List.mem_cons_of_mem a hb)
    unfold advance
    by_cases hx : a.set.contains x = true
    · rw [if_pos hx]
      exact follow_honest a.after a.marks _ (hwaiting a List.mem_cons_self hx) hbetter
    · rw [if_neg hx]
      exact hbetter

/-- What an honest front comes to meets the goal, if the reading known before does. -/
theorem goal_of_bestFrom {f : Front} {known : Option Reading} (hf : f.Honest goal offset rest)
    (hknown : ∀ r, known = some r → ∃ c, goal c ∧ c.reading = r) {r : Reading}
    (hr : bestFrom offset f known rest = some r) : ∃ c, goal c ∧ c.reading = r := by
  have hbest : ∀ r, f.finished.or known = some r → ∃ c, goal c ∧ c.reading = r := by
    intro r hr
    rcases Option.or_eq_some_iff.mp hr with hr | ⟨-, hr⟩
    · exact hf.finished r hr
    · exact hknown r hr
  induction rest generalizing offset f known with
  | nil => exact hbest r hr
  | cons x xs ih =>
    unfold bestFrom at hr
    by_cases hnone : f.waiting.isEmpty = true
    · rw [if_pos hnone] at hr
      exact hbest r hr
    · rw [if_neg hnone] at hr
      have hnext : (advance ⟨offset + x.utf8Size, xs.isEmpty⟩ x f.waiting).Honest goal
          (offset + x.utf8Size) xs :=
        advance_honest fun a ha hx => hf.waiting a ha x xs rfl hx
      refine ih hnext hbest hr ?_
      intro r hr
      rcases Option.or_eq_some_iff.mp hr with hr | ⟨-, hr⟩
      · exact hnext.finished r hr
      · exact hbest r hr

/-- **Honest readings**: the preferred reading of a plan is the end of one of its runs. -/
theorem Plan.exists_admits_of_best? {p : Plan} {r : Reading} (hr : p.best? offset rest = some r) :
    ∃ c, p.Admits ⟨offset, rest, []⟩ c ∧ c.reading = r := by
  have hleads : Task.LeadsTo (p.Admits ⟨offset, rest, []⟩) [.read p] ⟨offset, rest, []⟩ := by
    intro e he
    cases he with
    | read hp he =>
      cases he with
      | nil => exact hp
  have hfirst := follow_honest [.read p] [] .empty hleads Front.honest_empty
  refine goal_of_bestFrom hfirst ?_ hr
  intro known hknown
  cases hknown

end

end TreeQuery.Pattern
