import TreeQuery.Proofs.Pattern.Numbering

/-! # Liveness — a front that reports nothing has hidden nothing

    A front drops an attempt that comes second to a place. If the body of a loop
    reads nothing, the place may still be under way, and then nothing can be said
    about it yet: the earlier visitor gave the round up. What carries the argument
    is the length of a run. A place under way was met on a longer run than the one
    that comes back to it, so the shortest run is never lost.

    * **Runs**: how tasks are done to their end, and in how many turns.
    * **Covering fronts**: a place seen whose tasks can be done keeps the front
      live, or a place under way can be done in fewer turns.
    * **Progress**: a live front reports a reading.
-/

namespace TreeQuery.Pattern

/-! ### Runs -/

namespace Task

/-- The tasks can be done to their end at a place of a text, in the given number of turns. Every
    choice and every junction of a loop takes one turn. -/
inductive Succeeds : Nat → List Task → Nat → List Char → Prop where
  | nil (turns offset : Nat) (rest : List Char) : Succeeds turns [] offset rest
  | close {turns offset : Nat} {rest : List Char} {name : String} {began : Nat}
      {after : List Task} :
      Succeeds turns after offset rest →
      Succeeds turns (.close name began :: after) offset rest
  | empty {turns offset : Nat} {rest : List Char} {after : List Task} :
      Succeeds turns after offset rest → Succeeds turns (.read .empty :: after) offset rest
  | one {turns offset : Nat} {x : Char} {xs : List Char} {place : Nat} {set : CharSet}
      {after : List Task} :
      set.contains x = true → Succeeds turns after (offset + x.utf8Size) xs →
      Succeeds turns (.read (.one place set) :: after) offset (x :: xs)
  | start {turns : Nat} {rest : List Char} {after : List Task} :
      Succeeds turns after 0 rest → Succeeds turns (.read .start :: after) 0 rest
  | finish {turns offset : Nat} {after : List Task} :
      Succeeds turns after offset [] → Succeeds turns (.read .finish :: after) offset []
  | seq {turns offset : Nat} {rest : List Char} {first second : Plan} {after : List Task} :
      Succeeds turns (.read first :: .read second :: after) offset rest →
      Succeeds turns (.read (.seq first second) :: after) offset rest
  | preferred {turns offset : Nat} {rest : List Char} {place : Nat} {preferred other : Plan}
      {after : List Task} :
      Succeeds turns (.read preferred :: after) offset rest →
      Succeeds (turns + 1) (.read (.alt place preferred other) :: after) offset rest
  | other {turns offset : Nat} {rest : List Char} {place : Nat} {preferred other : Plan}
      {after : List Task} :
      Succeeds turns (.read other :: after) offset rest →
      Succeeds (turns + 1) (.read (.alt place preferred other) :: after) offset rest
  | group {turns offset : Nat} {rest : List Char} {name : String} {began : Nat} {body : Plan}
      {after : List Task} :
      Succeeds turns (.read body :: .close name began :: after) offset rest →
      Succeeds turns (.read (.group name body) :: after) offset rest
  /-- The first round of a loop that has been entered comes before its junction. -/
  | enter {turns offset : Nat} {rest : List Char} {place : Nat} {greedy : Bool} {body : Plan}
      {after : List Task} :
      Succeeds turns (.read body :: .read (.loop place greedy false body) :: after) offset rest →
      Succeeds turns (.read (.loop place greedy true body) :: after) offset rest
  /-- At the junction there is one more round, -/
  | round {turns offset : Nat} {rest : List Char} {place : Nat} {greedy : Bool} {body : Plan}
      {after : List Task} :
      Succeeds turns (.read body :: .read (.loop place greedy false body) :: after) offset rest →
      Succeeds (turns + 1) (.read (.loop place greedy false body) :: after) offset rest
  /-- or the loop is left. -/
  | leave {turns offset : Nat} {rest : List Char} {place : Nat} {greedy : Bool} {body : Plan}
      {after : List Task} :
      Succeeds turns after offset rest →
      Succeeds (turns + 1) (.read (.loop place greedy false body) :: after) offset rest

/-- The tasks can be done to their end. -/
def Live (tasks : List Task) (offset : Nat) (rest : List Char) : Prop :=
  ∃ turns, Succeeds turns tasks offset rest

theorem exists_of_map_shape_eq_read {tasks shapes : List Task} {plan : Plan}
    (h : tasks.map shape = .read plan :: shapes) :
    ∃ after, tasks = .read plan :: after ∧ after.map shape = shapes := by
  obtain ⟨task, after, rfl, htask, hafter⟩ := List.map_eq_cons_iff.mp h
  cases task with
  | read other =>
    cases htask
    exact ⟨after, rfl, hafter⟩
  | close name began => cases htask

theorem exists_of_map_shape_eq_close {tasks shapes : List Task} {name : String}
    (h : tasks.map shape = .close name 0 :: shapes) :
    ∃ began after, tasks = .close name began :: after ∧ after.map shape = shapes := by
  obtain ⟨task, after, rfl, htask, hafter⟩ := List.map_eq_cons_iff.mp h
  cases task with
  | read plan => cases htask
  | close other began =>
    cases htask
    exact ⟨began, after, rfl, hafter⟩

/-- Where the groups began does not matter to whether the tasks can be done. -/
theorem Succeeds.of_map_shape_eq {turns offset : Nat} {rest : List Char} {tasks others : List Task}
    (h : Succeeds turns tasks offset rest) (heq : others.map shape = tasks.map shape) :
    Succeeds turns others offset rest := by
  induction h generalizing others with
  | nil turns offset rest =>
    rw [List.map_eq_nil_iff.mp heq]
    exact .nil turns offset rest
  | close _ ih =>
    obtain ⟨_, after, rfl, hafter⟩ := exists_of_map_shape_eq_close heq
    exact .close (ih hafter)
  | empty _ ih =>
    obtain ⟨after, rfl, hafter⟩ := exists_of_map_shape_eq_read heq
    exact .empty (ih hafter)
  | one hx _ ih =>
    obtain ⟨after, rfl, hafter⟩ := exists_of_map_shape_eq_read heq
    exact .one hx (ih hafter)
  | start _ ih =>
    obtain ⟨after, rfl, hafter⟩ := exists_of_map_shape_eq_read heq
    exact .start (ih hafter)
  | finish _ ih =>
    obtain ⟨after, rfl, hafter⟩ := exists_of_map_shape_eq_read heq
    exact .finish (ih hafter)
  | seq _ ih =>
    obtain ⟨after, rfl, hafter⟩ := exists_of_map_shape_eq_read heq
    exact .seq (ih (by simp [hafter]))
  | preferred _ ih =>
    obtain ⟨after, rfl, hafter⟩ := exists_of_map_shape_eq_read heq
    exact .preferred (ih (by simp [hafter]))
  | other _ ih =>
    obtain ⟨after, rfl, hafter⟩ := exists_of_map_shape_eq_read heq
    exact .other (ih (by simp [hafter]))
  | @group _ _ _ _ began _ _ _ ih =>
    obtain ⟨after, rfl, hafter⟩ := exists_of_map_shape_eq_read heq
    exact .group (@ih (_ :: .close _ began :: after) (by simp [hafter]))
  | enter _ ih =>
    obtain ⟨after, rfl, hafter⟩ := exists_of_map_shape_eq_read heq
    exact .enter (ih (by simp [hafter]))
  | round _ ih =>
    obtain ⟨after, rfl, hafter⟩ := exists_of_map_shape_eq_read heq
    exact .round (ih (by simp [hafter]))
  | leave _ ih =>
    obtain ⟨after, rfl, hafter⟩ := exists_of_map_shape_eq_read heq
    exact .leave (ih hafter)

/-- The tasks at a place of a table can be done iff the tasks of an attempt there can. -/
theorem succeeds_iff {turns offset : Nat} {rest : List Char} {tasks shapes : List Task}
    (h : shapes = tasks.map shape) :
    Succeeds turns shapes offset rest ↔ Succeeds turns tasks offset rest := by
  have hshape : shape ∘ shape = shape := by
    funext task
    cases task <;> rfl
  have heq : shapes.map shape = tasks.map shape := by rw [h, List.map_map, hshape]
  exact ⟨fun hs => hs.of_map_shape_eq heq.symm, fun hs => hs.of_map_shape_eq heq⟩

/-! What comes of a task depends on what comes of the tasks behind it. -/

section

variable {turns offset : Nat} {rest : List Char} {after : List Task}

theorem Succeeds.of_close {name : String} {began : Nat}
    (h : Succeeds turns (.close name began :: after) offset rest) :
    Succeeds turns after offset rest := by
  cases h with
  | close h => exact h

theorem Succeeds.of_empty (h : Succeeds turns (.read .empty :: after) offset rest) :
    Succeeds turns after offset rest := by
  cases h with
  | empty h => exact h

theorem succeeds_start_iff : Succeeds turns (.read .start :: after) offset rest ↔
    offset = 0 ∧ Succeeds turns after offset rest := by
  constructor
  · intro h
    cases h with
    | start h => exact ⟨rfl, h⟩
  · rintro ⟨rfl, h⟩
    exact .start h

theorem succeeds_finish_iff : Succeeds turns (.read .finish :: after) offset rest ↔
    rest = [] ∧ Succeeds turns after offset rest := by
  constructor
  · intro h
    cases h with
    | finish h => exact ⟨rfl, h⟩
  · rintro ⟨rfl, h⟩
    exact .finish h

theorem Succeeds.of_seq {first second : Plan}
    (h : Succeeds turns (.read (.seq first second) :: after) offset rest) :
    Succeeds turns (.read first :: .read second :: after) offset rest := by
  cases h with
  | seq h => exact h

/-- Where a group began does not matter to its body. -/
theorem Succeeds.of_group {name : String} {body : Plan} (began : Nat)
    (h : Succeeds turns (.read (.group name body) :: after) offset rest) :
    Succeeds turns (.read body :: .close name began :: after) offset rest := by
  cases h with
  | group h => exact h.of_map_shape_eq rfl

theorem Succeeds.of_enter {place : Nat} {greedy : Bool} {body : Plan}
    (h : Succeeds turns (.read (.loop place greedy true body) :: after) offset rest) :
    Succeeds turns (.read body :: .read (.loop place greedy false body) :: after) offset rest := by
  cases h with
  | enter h => exact h

end

/-- Tasks whose plans follow a table. -/
def Follow (table : Nat → List Task) : List Task → Prop
  | [] => True
  | .read plan :: tasks => plan.Follows table (tasks.map shape) ∧ Follow table tasks
  | .close _ _ :: tasks => Follow table tasks

end Task

/-! ### Moves only add -/

/-- A front with more attempts, all of them worse. Nothing is added to a front that has finished. -/
structure Front.Extends (f g : Front) : Prop where
  waiting : ∃ new, g.waiting = new ++ f.waiting
  finished : f.finished.isSome = true → g = f

namespace Front.Extends

theorem refl (f : Front) : f.Extends f := ⟨⟨[], rfl⟩, fun _ => rfl⟩

theorem trans {f g h : Front} (hfg : f.Extends g) (hgh : g.Extends h) : f.Extends h where
  waiting := by
    obtain ⟨new, hnew⟩ := hfg.waiting
    obtain ⟨more, hmore⟩ := hgh.waiting
    exact ⟨more ++ new, by rw [hmore, hnew, List.append_assoc]⟩
  finished hf := by
    have heq := hfg.finished hf
    subst heq
    exact hgh.finished hf

theorem finish (f : Front) (r : Reading) : f.Extends (f.finish r) := by
  unfold Front.finish
  split
  · exact refl f
  · next h => exact ⟨⟨[], rfl⟩, fun hf => absurd hf h⟩

theorem wait {f : Front} (h : f.finished = none) (a : Attempt) : f.Extends (f.wait a) := by
  refine ⟨⟨[a], rfl⟩, ?_⟩
  intro hf
  simp [h] at hf

/-- Only a front that has not finished is visited. -/
theorem visit (f : Front) (place : Nat) {go : Front → Front}
    (hgo : ∀ g : Front, g.finished = none → g.Extends (go g)) : f.Extends (f.visit place go) := by
  unfold Front.visit
  split
  · exact refl f
  · next h =>
    have hnone : f.finished = none := by simp_all
    have hext := hgo { f with seen := f.seen.insert place } hnone
    refine ⟨hext.waiting, ?_⟩
    intro hf
    simp [hnone] at hf

end Front.Extends

/-- A move only adds worse attempts. -/
def Move.Extending (move : Move) : Prop :=
  ∀ (marks : List Mark) (f : Front), f.Extends (move marks f)

theorem Move.extending_junction (place : Nat) (greedy : Bool) {round leave : Move}
    (hround : round.Extending) (hleave : leave.Extending) :
    Move.Extending (junction place greedy round leave) := by
  intro marks f
  unfold junction
  apply Front.Extends.visit
  intro g _
  cases greedy
  · exact (hleave marks g).trans (hround marks _)
  · exact (hround marks g).trans (hleave marks _)

theorem Move.extending_giveUp : giveUp.Extending := fun _ f => .refl f

/-- An anchor goes on or gives up. -/
theorem Plan.enter_start (spot : Spot) (after : List Task) (go : Move) :
    start.enter spot after go = if spot.offset = 0 then go else giveUp := by
  funext marks f
  unfold enter
  split <;> rfl

theorem Plan.enter_finish (spot : Spot) (after : List Task) (go : Move) :
    finish.enter spot after go = if spot.atEnd then go else giveUp := by
  funext marks f
  unfold enter
  split <;> rfl

theorem Plan.enter_extending (spot : Spot) {p : Plan} {after : List Task} {go : Move}
    (hgo : go.Extending) : Move.Extending (p.enter spot after go) := by
  induction p generalizing after go with
  | empty => exact hgo
  | one place set =>
    intro marks f
    exact .visit f place fun g hg => .wait hg _
  | start =>
    rw [enter_start]
    split
    · exact hgo
    · exact Move.extending_giveUp
  | finish =>
    rw [enter_finish]
    split
    · exact hgo
    · exact Move.extending_giveUp
  | seq first second ihf ihs => exact ihf (ihs hgo)
  | alt place preferred other ihp iho =>
    intro marks f
    exact .visit f place fun g _ => (ihp hgo marks g).trans (iho hgo marks _)
  | group name body ih => exact ih fun marks f => hgo _ f
  | loop place greedy entered body ih =>
    have hround := @ih (.read (.loop place greedy false body) :: after) giveUp
      Move.extending_giveUp
    have hjunction := Move.extending_junction place greedy hround hgo
    cases entered with
    | false => exact hjunction
    | true => exact ih hjunction

theorem follow_extending (spot : Spot) (tasks : List Task) : (follow spot tasks).Extending := by
  induction tasks with
  | nil => exact fun marks f => .finish f _
  | cons task after ih =>
    cases task with
    | read plan => exact Plan.enter_extending spot ih
    | close name began => exact fun marks f => ih _ f

/-! ### Covering fronts -/

section

variable (offset : Nat) (rest : List Char)

/-- The attempt can go on with the next character and be done to its end. -/
def Attempt.Live (a : Attempt) : Prop :=
  ∃ x xs, rest = x :: xs ∧ a.set.contains x = true ∧
    Task.Live a.after (offset + x.utf8Size) xs

/-- The front has finished, or some attempt of it can be done to its end. -/
def Front.Live (f : Front) : Prop :=
  f.finished.isSome = true ∨ ∃ a ∈ f.waiting, a.Live offset rest

variable (table : Nat → List Task)

/-- Some place of a list can be done in fewer turns than given. -/
def Sooner (pending : List Nat) (turns : Nat) : Prop :=
  ∃ place ∈ pending, ∃ fewer < turns, Task.Succeeds fewer (table place) offset rest

/-- Whatever can be done at a place seen keeps the front live, or else a place in `pending` can be
    done sooner. The places in `pending` are still being explored. -/
structure Front.Covers (pending : List Nat) (f : Front) : Prop where
  seen : ∀ place, f.seen.contains place = true → place ∉ pending →
    ∀ turns, Task.Succeeds turns (table place) offset rest →
      f.Live offset rest ∨ Sooner offset rest table pending turns
  follow : ∀ a ∈ f.waiting, Task.Follow table a.after

/-- A move does some tasks: if they can be done, the front is live behind it, or else a place in
    `pending` can be done in no more turns. -/
def Move.Covers (pending : List Nat) (move : Move) (tasks : List Task) : Prop :=
  ∀ marks f, f.Covers offset rest table pending →
    (move marks f).Covers offset rest table pending ∧
    ∀ turns, Task.Succeeds turns tasks offset rest →
      (move marks f).Live offset rest ∨ Sooner offset rest table pending (turns + 1)

end

section

variable {offset : Nat} {rest : List Char} {table : Nat → List Task}

/-- A live front stays live. -/
theorem Front.Extends.live {f g : Front} (h : f.Extends g) (hf : f.Live offset rest) :
    g.Live offset rest := by
  rcases hf with hfinished | ⟨a, ha, hlive⟩
  · rw [h.finished hfinished]
    exact .inl hfinished
  · obtain ⟨new, hnew⟩ := h.waiting
    refine .inr ⟨a, ?_, hlive⟩
    rw [hnew]
    exact List.mem_append_right new ha

theorem Sooner.mono {pending : List Nat} {turns turns' : Nat}
    (h : Sooner offset rest table pending turns) (hle : turns ≤ turns') :
    Sooner offset rest table pending turns' := by
  obtain ⟨place, hmem, fewer, hlt, hrun⟩ := h
  exact ⟨place, hmem, fewer, Nat.lt_of_lt_of_le hlt hle, hrun⟩

/-- A place under way need not be, if what comes of it is known for all runs that are shorter. -/
theorem Sooner.of_cons {live : Prop} {pending : List Nat} {place turns : Nat}
    (h : Sooner offset rest table (place :: pending) turns)
    (hplace : ∀ fewer < turns, Task.Succeeds fewer (table place) offset rest →
      live ∨ Sooner offset rest table pending fewer) :
    live ∨ Sooner offset rest table pending turns := by
  obtain ⟨p, hp, fewer, hlt, hrun⟩ := h
  rcases List.mem_cons.mp hp with rfl | hp
  · exact (hplace fewer hlt hrun).imp_right fun h => h.mono (Nat.le_of_lt hlt)
  · exact .inr ⟨p, hp, fewer, hlt, hrun⟩

/-- A run that comes back to its place does so with fewer turns, and there is a fewest. -/
theorem live_or_sooner {live : Prop} {pending : List Nat} {place turns : Nat}
    (hdone : ∀ turns, Task.Succeeds turns (table place) offset rest →
      live ∨ Sooner offset rest table (place :: pending) turns)
    (hrun : Task.Succeeds turns (table place) offset rest) :
    live ∨ Sooner offset rest table pending turns := by
  induction turns using Nat.strongRecOn with
  | ind turns ih =>
    rcases hdone turns hrun with hlive | hsooner
    · exact .inl hlive
    · exact hsooner.of_cons fun fewer hlt hfewer => ih fewer hlt hfewer

/-- What has been seen is covered while one more place is under way. -/
theorem Front.Covers.visited {pending : List Nat} {f : Front}
    (hf : f.Covers offset rest table pending) (place : Nat) :
    Front.Covers offset rest table (place :: pending)
      { f with seen := f.seen.insert place } := by
  refine ⟨?_, hf.follow⟩
  intro q hq hpending turns hrun
  rw [PlaceSet.contains_insert, Bool.or_eq_true, decide_eq_true_eq] at hq
  rw [List.mem_cons, not_or] at hpending
  have hseen : f.seen.contains q = true := hq.resolve_right fun h => hpending.1 h.symm
  refine (hf.seen q hseen hpending.2 turns hrun).imp_right ?_
  rintro ⟨p, hp, hrun⟩
  exact ⟨p, List.mem_cons_of_mem place hp, hrun⟩

theorem Front.covers_empty : Front.empty.Covers offset rest table [] where
  seen place hseen := by
    unfold empty at hseen
    rw [PlaceSet.contains_empty] at hseen
    cases hseen
  follow a ha := absurd ha List.not_mem_nil

/-- Waiting for a character does the tasks of a set. -/
theorem Front.Covers.wait {pending : List Nat} {f : Front}
    (hf : f.Covers offset rest table pending) (hopen : f.finished = none) {place : Nat}
    {set : CharSet} {after : List Task} (hafter : Task.Follow table after) (marks : List Mark) :
    (f.wait ⟨set, after, marks⟩).Covers offset rest table pending ∧
    ∀ turns, Task.Succeeds turns (.read (.one place set) :: after) offset rest →
      (f.wait ⟨set, after, marks⟩).Live offset rest := by
  refine ⟨⟨?_, ?_⟩, ?_⟩
  · intro q hq hpending turns hrun
    rcases hf.seen q hq hpending turns hrun with hlive | hsooner
    · exact .inl ((Extends.wait hopen _).live hlive)
    · exact .inr hsooner
  · intro a ha
    rcases List.mem_cons.mp ha with rfl | ha
    · exact hafter
    · exact hf.follow a ha
  · intro turns hrun
    cases hrun with
    | @one _ _ x xs _ _ _ hx hrun =>
      exact .inr ⟨_, List.mem_cons_self, x, xs, rfl, hx, turns, hrun⟩

/-- The first visitor of a place does the tasks there. Of the places under way, the place itself is
    the one that its own tasks may come back to, and a shortest run does not come back. -/
theorem Move.covers_visit {pending : List Nat} {place : Nat} {tasks : List Task} (go : Move)
    (htable : table place = tasks.map Task.shape)
    (hgo : ∀ marks f, f.finished = none → f.Covers offset rest table (place :: pending) →
      (go marks f).Covers offset rest table (place :: pending) ∧
      ∀ turns, Task.Succeeds turns tasks offset rest →
        (go marks f).Live offset rest ∨ Sooner offset rest table (place :: pending) turns) :
    Move.Covers offset rest table pending (fun marks f => f.visit place (go marks)) tasks := by
  intro marks f hf
  show (f.visit place (go marks)).Covers offset rest table pending ∧
    ∀ turns, _ → (f.visit place (go marks)).Live offset rest ∨ _
  unfold Front.visit
  by_cases hdrop : (f.finished.isSome || f.seen.contains place) = true
  · -- a late visitor finds a live front, or a place that says enough
    rw [if_pos hdrop]
    refine ⟨hf, ?_⟩
    intro turns hrun
    have hplace := (Task.succeeds_iff htable).mpr hrun
    rcases Bool.or_eq_true_iff.mp hdrop with hfinished | hseen
    · exact .inl (.inl hfinished)
    · by_cases hpending : place ∈ pending
      · exact .inr ⟨place, hpending, turns, Nat.lt_succ_self turns, hplace⟩
      · have hseen := hf.seen place hseen hpending turns hplace
        exact hseen.imp_right fun h => h.mono (Nat.le_succ turns)
  · rw [if_neg hdrop]
    have hopen : f.finished = none := by simp_all
    obtain ⟨hcovers, hdone⟩ := hgo marks { f with seen := f.seen.insert place } hopen
      (hf.visited place)
    -- what the first visitor does not come to, a place under way comes to sooner
    have hhere : ∀ turns, Task.Succeeds turns (table place) offset rest →
        (go marks { f with seen := f.seen.insert place }).Live offset rest ∨
          Sooner offset rest table pending turns := by
      intro turns hrun
      refine live_or_sooner ?_ hrun
      exact fun turns hrun => hdone turns ((Task.succeeds_iff htable).mp hrun)
    refine ⟨⟨?_, hcovers.follow⟩, ?_⟩
    · intro q hq hpending turns hrun
      by_cases heq : q = place
      · subst heq
        exact hhere turns hrun
      · have hnot : q ∉ place :: pending := by simp [heq, hpending]
        rcases hcovers.seen q hq hnot turns hrun with hlive | hsooner
        · exact .inl hlive
        · exact hsooner.of_cons fun fewer _ hfewer => hhere fewer hfewer
    · intro turns hrun
      have hplace := (Task.succeeds_iff htable).mpr hrun
      exact (hhere turns hplace).imp_right fun h => h.mono (Nat.le_succ turns)

/-- A move covers other tasks as well, if its own can be done in as many turns. -/
theorem Move.Covers.mono {pending : List Nat} {move : Move} {tasks others : List Task}
    (hmove : Move.Covers offset rest table pending move tasks)
    (htasks : ∀ turns, Task.Succeeds turns others offset rest →
      Task.Succeeds turns tasks offset rest) :
    Move.Covers offset rest table pending move others := by
  intro marks f hf
  obtain ⟨hcovers, hdone⟩ := hmove marks f hf
  exact ⟨hcovers, fun turns hrun => hdone turns (htasks turns hrun)⟩

/-- Tasks that must fail may be given up. -/
theorem Move.covers_of_fails {pending : List Nat} {tasks : List Task}
    (h : ∀ turns, ¬Task.Succeeds turns tasks offset rest) :
    Move.Covers offset rest table pending giveUp tasks :=
  fun _ _ hf => ⟨hf, fun turns hrun => absurd hrun (h turns)⟩

/-- What one of two moves covers, both cover, one after the other. -/
theorem Move.Covers.andThen {pending : List Nat} {go more : Move} {tasks others : List Task}
    (hgo : Move.Covers offset rest table pending go tasks)
    (hmore : Move.Covers offset rest table pending more others) (hext : more.Extending)
    (marks : List Mark) {f : Front} (hf : f.Covers offset rest table pending) :
    (more marks (go marks f)).Covers offset rest table pending ∧
    ∀ turns, Task.Succeeds turns tasks offset rest ∨ Task.Succeeds turns others offset rest →
      (more marks (go marks f)).Live offset rest ∨
        Sooner offset rest table pending (turns + 1) := by
  obtain ⟨hcovers, hdone⟩ := hgo marks f hf
  obtain ⟨hcovers', hdone'⟩ := hmore marks _ hcovers
  refine ⟨hcovers', ?_⟩
  rintro turns (hrun | hrun)
  · exact (hdone turns hrun).imp_left fun hlive => (hext marks _).live hlive
  · exact hdone' turns hrun

/-- At the junction of a loop one more round and leaving the loop are covered. -/
theorem Move.covers_junction {pending : List Nat} {place : Nat} {greedy : Bool} {body : Plan}
    {after : List Task} {round leave : Move}
    (htable : table place = .read (.loop place greedy false body) :: after.map Task.shape)
    (hround : Move.Covers offset rest table (place :: pending) round
      (.read body :: .read (.loop place greedy false body) :: after))
    (hleave : Move.Covers offset rest table (place :: pending) leave after)
    (hextRound : round.Extending) (hextLeave : leave.Extending) :
    Move.Covers offset rest table pending (junction place greedy round leave)
      (.read (.loop place greedy false body) :: after) := by
  unfold junction
  refine Move.covers_visit (fun marks f =>
    if greedy then leave marks (round marks f) else round marks (leave marks f)) htable ?_
  intro marks f _ hf
  cases greedy
  · obtain ⟨hcovers, hdone⟩ := hleave.andThen hround hextRound marks hf
    refine ⟨hcovers, ?_⟩
    intro turns hrun
    cases hrun with
    | round hrun => exact hdone _ (.inr hrun)
    | leave hrun => exact hdone _ (.inl hrun)
  · obtain ⟨hcovers, hdone⟩ := hround.andThen hleave hextLeave marks hf
    refine ⟨hcovers, ?_⟩
    intro turns hrun
    cases hrun with
    | round hrun => exact hdone _ (.inl hrun)
    | leave hrun => exact hdone _ (.inr hrun)

/-- A round that has come back to its junction may be given up, as the junction is under way. -/
theorem Move.covers_giveUp {pending : List Nat} {place : Nat} {tasks : List Task}
    (hplace : place ∈ pending) (htable : table place = tasks.map Task.shape) :
    Move.Covers offset rest table pending giveUp tasks := by
  intro marks f hf
  refine ⟨hf, ?_⟩
  intro turns hrun
  exact .inr ⟨place, hplace, turns, Nat.lt_succ_self turns, (Task.succeeds_iff htable).mpr hrun⟩

/-- Going through a plan covers what comes of it if going on behind it does. -/
theorem Plan.enter_covers {p : Plan} {after : List Task} {go : Move} {pending : List Nat}
    (hfollows : p.Follows table (after.map Task.shape)) (hafter : Task.Follow table after)
    (hgo : ∀ more, pending ⊆ more → Move.Covers offset rest table more go after)
    (hext : go.Extending) :
    Move.Covers offset rest table pending (p.enter ⟨offset, rest.isEmpty⟩ after go)
      (.read p :: after) := by
  -- by induction on the plan: whoever enters a part goes on with the parts behind it
  induction p generalizing after go pending with
  | empty => exact (hgo pending (List.Subset.refl _)).mono fun _ hrun => hrun.of_empty
  | one place set =>
    refine Move.covers_visit (fun marks f => f.wait ⟨set, after, marks⟩) hfollows ?_
    intro marks f hopen hf
    obtain ⟨hcovers, hdone⟩ := @Front.Covers.wait _ _ _ _ _ hf hopen place set _ hafter marks
    exact ⟨hcovers, fun turns hrun => .inl (hdone turns hrun)⟩
  | start =>
    rw [enter_start]
    split
    · have hstart := hgo pending (List.Subset.refl _)
      exact hstart.mono fun _ hrun => (Task.succeeds_start_iff.mp hrun).2
    · next hstart =>
      exact Move.covers_of_fails fun _ hrun => hstart (Task.succeeds_start_iff.mp hrun).1
  | finish =>
    rw [enter_finish]
    split
    · have hfinish := hgo pending (List.Subset.refl _)
      exact hfinish.mono fun _ hrun => (Task.succeeds_finish_iff.mp hrun).2
    · next hend =>
      apply Move.covers_of_fails
      intro _ hrun
      exact hend (List.isEmpty_iff.mpr (Task.succeeds_finish_iff.mp hrun).1)
  | seq first second ihf ihs =>
    obtain ⟨hfirst, hsecond⟩ := hfollows
    have hrest : ∀ more, pending ⊆ more → Move.Covers offset rest table more
        (second.enter ⟨offset, rest.isEmpty⟩ after go) (.read second :: after) := by
      intro more hmore
      refine ihs hsecond hafter ?_ hext
      exact fun others hothers => hgo others (List.Subset.trans hmore hothers)
    have hall := @ihf (.read second :: after) _ pending hfirst ⟨hsecond, hafter⟩ hrest
      (enter_extending _ hext)
    exact hall.mono fun _ hrun => hrun.of_seq
  | alt place preferred other ihp iho =>
    obtain ⟨htable, hpreferred, hother⟩ := hfollows
    have hwider : ∀ more, place :: pending ⊆ more →
        Move.Covers offset rest table more go after :=
      fun more hmore => hgo more (List.Subset.trans (List.subset_cons_self _ _) hmore)
    refine Move.covers_visit (fun marks f =>
      other.enter _ after go marks (preferred.enter _ after go marks f)) htable ?_
    intro marks f _ hf
    obtain ⟨hcovers, hdone⟩ := (ihp hpreferred hafter hwider hext).andThen
      (iho hother hafter hwider hext) (enter_extending _ hext) marks hf
    refine ⟨hcovers, ?_⟩
    intro turns hrun
    cases hrun with
    | preferred hrun => exact hdone _ (.inl hrun)
    | other hrun => exact hdone _ (.inr hrun)
  | group name body ih =>
    have hclose : ∀ more, pending ⊆ more → Move.Covers offset rest table more
        (fun marks => go (⟨name, offset, offset⟩ :: marks)) (.close name offset :: after) := by
      intro more hmore
      have hbehind := hgo more hmore
      exact .mono (fun _ f hf => hbehind _ f hf) fun _ hrun => hrun.of_close
    have hall := @ih (.close name offset :: after) _ pending hfollows hafter hclose
      fun _ f => hext _ f
    exact hall.mono fun _ hrun => hrun.of_group offset
  | loop place greedy entered body ih =>
    obtain ⟨htable, hbody⟩ := hfollows
    have hagain : Task.Follow table (.read (.loop place greedy false body) :: after) :=
      ⟨⟨htable, hbody⟩, hafter⟩
    have hround : ∀ more, place ∈ more → Move.Covers offset rest table more
        (body.enter ⟨offset, rest.isEmpty⟩ (.read (.loop place greedy false body) :: after) giveUp)
        (.read body :: .read (.loop place greedy false body) :: after) := by
      intro more hplace
      refine ih hbody hagain ?_ Move.extending_giveUp
      intro others hothers
      exact Move.covers_giveUp (hothers hplace) htable
    have hextRound := @enter_extending ⟨offset, rest.isEmpty⟩ body
      (.read (.loop place greedy false body) :: after) giveUp Move.extending_giveUp
    have hjunction : ∀ more, pending ⊆ more → Move.Covers offset rest table more
        (junction place greedy (body.enter ⟨offset, rest.isEmpty⟩
          (.read (.loop place greedy false body) :: after) giveUp) go)
        (.read (.loop place greedy false body) :: after) := by
      intro more hmore
      exact Move.covers_junction htable (hround _ List.mem_cons_self)
        (hgo _ (List.Subset.trans hmore (List.subset_cons_self _ _))) hextRound hext
    cases entered with
    | false => exact hjunction pending (List.Subset.refl _)
    | true =>
      have hall := @ih (.read (.loop place greedy false body) :: after) _ pending hbody hagain
        hjunction (Move.extending_junction place greedy hextRound hext)
      exact hall.mono fun _ hrun => hrun.of_enter

/-- Doing the tasks of an attempt covers what comes of them. -/
theorem follow_covers {tasks : List Task} (htasks : Task.Follow table tasks)
    (pending : List Nat) :
    Move.Covers offset rest table pending (follow ⟨offset, rest.isEmpty⟩ tasks) tasks := by
  induction tasks generalizing pending with
  | nil =>
    intro marks f hf
    have hext := Front.Extends.finish f ⟨offset, marks⟩
    refine ⟨⟨?_, ?_⟩, ?_⟩
    · intro q hq hpending turns hrun
      have hseen : (f.finish ⟨offset, marks⟩).seen = f.seen := by
        unfold Front.finish
        split <;> rfl
      have hq' : f.seen.contains q = true := hseen ▸ hq
      exact (hf.seen q hq' hpending turns hrun).imp_left fun hlive => hext.live hlive
    · intro a ha
      have hwaiting : (f.finish ⟨offset, marks⟩).waiting = f.waiting := by
        unfold Front.finish
        split <;> rfl
      exact hf.follow a (hwaiting ▸ ha)
    · intro turns _
      left
      left
      show (f.finish ⟨offset, marks⟩).finished.isSome = true
      unfold Front.finish
      split
      · next h => exact h
      · rfl
  | cons task after ih =>
    cases task with
    | read plan =>
      exact Plan.enter_covers htasks.1 htasks.2 (fun more _ => ih htasks.2 more)
        (follow_extending _ after)
    | close name began =>
      have hbehind := ih htasks pending
      exact .mono (fun _ f hf => hbehind _ f hf) fun _ hrun => hrun.of_close

/-! ### Progress -/

/-- Behind a character a front covers all that it has seen, and is live if it was. -/
theorem advance_covers {x : Char} {xs : List Char} {waiting : List Attempt}
    (hfollow : ∀ a ∈ waiting, Task.Follow table a.after) :
    (advance ⟨offset + x.utf8Size, xs.isEmpty⟩ x waiting).Covers (offset + x.utf8Size) xs
      table [] ∧
    ((∃ a ∈ waiting, a.Live offset (x :: xs)) →
      (advance ⟨offset + x.utf8Size, xs.isEmpty⟩ x waiting).Live (offset + x.utf8Size) xs) := by
  induction waiting with
  | nil =>
    refine ⟨Front.covers_empty, ?_⟩
    rintro ⟨a, ha, _⟩
    cases ha
  | cons a better ih =>
    obtain ⟨hcovers, hlive⟩ := ih fun b hb => hfollow b (List.mem_cons_of_mem a hb)
    unfold advance
    by_cases hx : a.set.contains x = true
    · rw [if_pos hx]
      obtain ⟨hcovers', hdone⟩ := follow_covers (hfollow a List.mem_cons_self) [] a.marks _ hcovers
      refine ⟨hcovers', ?_⟩
      rintro ⟨b, hb, y, ys, hcons, _, turns, hrun⟩
      cases hcons
      rcases List.mem_cons.mp hb with rfl | hb
      · rcases hdone turns hrun with hlive | ⟨p, hp, _⟩
        · exact hlive
        · cases hp
      · refine (follow_extending _ a.after a.marks _).live ?_
        exact hlive ⟨b, hb, x, xs, rfl, ‹_›, turns, hrun⟩
    · rw [if_neg hx]
      refine ⟨hcovers, ?_⟩
      rintro ⟨b, hb, hblive⟩
      rcases List.mem_cons.mp hb with rfl | hb
      · obtain ⟨y, ys, hcons, hy, _⟩ := hblive
        cases hcons
        exact absurd hy hx
      · exact hlive ⟨b, hb, hblive⟩

/-- Where nothing waits, nothing better is found any more. -/
theorem bestFrom_of_waiting_eq_nil {f : Front} (h : f.waiting = []) (known : Option Reading) :
    bestFrom offset f known rest = f.finished.or known := by
  cases rest with
  | nil => rfl
  | cons x xs => simp [bestFrom, h]

/-- Reading a character moves all attempts of a front behind it. -/
theorem bestFrom_cons (f : Front) (known : Option Reading) (x : Char) (xs : List Char) :
    bestFrom offset f known (x :: xs) =
      bestFrom (offset + x.utf8Size) (advance ⟨offset + x.utf8Size, xs.isEmpty⟩ x f.waiting)
        (f.finished.or known) xs := by
  cases hwaiting : f.waiting with
  | nil =>
    rw [bestFrom_of_waiting_eq_nil hwaiting]
    exact (@bestFrom_of_waiting_eq_nil _ _ Front.empty rfl _).symm
  | cons a better => simp [bestFrom, hwaiting]

theorem isSome_bestFrom_of_known {f : Front} {known : Option Reading}
    (h : known.isSome = true) : (bestFrom offset f known rest).isSome = true := by
  induction rest generalizing offset f known with
  | nil =>
    unfold bestFrom
    rw [Option.isSome_or, h, Bool.or_true]
  | cons x xs ih =>
    rw [bestFrom_cons]
    apply ih
    rw [Option.isSome_or, h, Bool.or_true]

/-- **Progress**: a live front reports a reading. -/
theorem Front.Live.isSome_bestFrom {f : Front} (hlive : f.Live offset rest)
    (hfollow : ∀ a ∈ f.waiting, Task.Follow table a.after) (known : Option Reading) :
    (bestFrom offset f known rest).isSome = true := by
  induction rest generalizing offset f known with
  | nil =>
    rcases hlive with hfinished | ⟨a, _, x, xs, hcons, _⟩
    · unfold bestFrom
      rw [Option.isSome_or, hfinished, Bool.true_or]
    · cases hcons
  | cons x xs ih =>
    rw [bestFrom_cons]
    obtain ⟨hcovers, hnext⟩ := @advance_covers offset table x xs f.waiting hfollow
    rcases hlive with hfinished | hwaiting
    · apply isSome_bestFrom_of_known
      rw [Option.isSome_or, hfinished, Bool.true_or]
    · exact ih (hnext hwaiting) hcovers.follow _

end

end TreeQuery.Pattern
