import TreeQuery.Proofs.Pattern.Reader

/-! # Fronts — dropping late visitors loses nothing

    A front lets each place of the plan be visited once at each offset. What a
    late visitor could still reach, the earlier one has tried with the same tasks
    before it, so as long as nothing has succeeded the late visitor must fail.

    * **Orderly plans**: no place is met again before a character is read, and a
      place has the same tasks ahead of it whenever it is met.
    * **Sound fronts**: if no attempt of a front will succeed, then the tasks of
      every place seen, save those still being explored, have no readings.
    * **Preferred reading**: on an orderly plan a front reports the first of the
      readings that the plan has in the plain sense.
-/

namespace TreeQuery.Pattern

/-! ### Orderly plans -/

namespace Plan

/-- The places that may be met before a character is read. -/
def firsts : Plan → List Nat
  | .empty | .start | .finish => []
  | .one place _ => [place]
  | .seq first second => first.firsts ++ if first.nullable then second.firsts else []
  | .alt place preferred other => place :: (preferred.firsts ++ other.firsts)
  | .group _ body => body.firsts
  | .loop place _ entered body => if entered then body.firsts else place :: body.firsts

/-- No place is met again before a character is read, where `next` are the places that may be
    met right behind the plan. Every round of a loop reads something. -/
def Orderly : Plan → List Nat → Prop
  | .empty, _ | .one _ _, _ | .start, _ | .finish, _ => True
  | .seq first second, next =>
    first.Orderly (second.firsts ++ if second.nullable then next else []) ∧ second.Orderly next
  | .alt place preferred other, next =>
    place ∉ preferred.firsts ∧ place ∉ other.firsts ∧
    (preferred.nullable || other.nullable → place ∉ next) ∧
    preferred.Orderly next ∧ other.Orderly next
  | .group _ body, next => body.Orderly next
  | .loop place _ _ body, next =>
    body.nullable = false ∧ place ∉ body.firsts ∧ place ∉ next ∧
    body.Orderly (place :: (body.firsts ++ next))

/-- The tasks that an attempt at a place has ahead of it are those that a table gives, where
    `after` is the shape of the tasks behind the plan. -/
def Follows (table : Nat → List Task) : Plan → List Task → Prop
  | .empty, _ | .start, _ | .finish, _ => True
  | .one place set, after => table place = .read (.one place set) :: after
  | .seq first second, after =>
    first.Follows table (.read second :: after) ∧ second.Follows table after
  | .alt place preferred other, after =>
    table place = .read (.alt place preferred other) :: after ∧
    preferred.Follows table after ∧ other.Follows table after
  | .group name body, after => body.Follows table (.close name 0 :: after)
  | .loop place greedy _ body, after =>
    table place = .read (.loop place greedy false body) :: after ∧
    body.Follows table (.read (.loop place greedy false body) :: after)

end Plan

namespace Task

/-- The places that may be met first when tasks are done. -/
def firstsOf : List Task → List Nat
  | [] => []
  | .read plan :: tasks => plan.firsts ++ if plan.nullable then firstsOf tasks else []
  | .close _ _ :: tasks => firstsOf tasks

/-- Tasks whose plans are orderly and follow a table. -/
def Proper (table : Nat → List Task) : List Task → Prop
  | [] => True
  | .read plan :: tasks =>
    plan.Follows table (tasks.map shape) ∧ plan.Orderly (firstsOf tasks) ∧ Proper table tasks
  | .close _ _ :: tasks => Proper table tasks

end Task

/-! ### What a front will come to -/

section

variable (offset : Nat) (rest : List Char)

/-- The readings that a waiting attempt will come to. -/
def Attempt.outcomes (a : Attempt) : List Reading :=
  (Reader.seq (.one a.set) (Task.readingsOf a.after) ⟨offset, rest, a.marks⟩).map Cursor.reading

/-- The readings that tasks come to. -/
def Task.outcomes (tasks : List Task) (marks : List Mark) : List Reading :=
  (Task.readingsOf tasks ⟨offset, rest, marks⟩).map Cursor.reading

/-- The readings that a front will come to, the preferred one first. -/
def Front.outcomes (f : Front) : List Reading :=
  f.waiting.reverse.flatMap (·.outcomes offset rest) ++ f.finished.toList

variable (table : Nat → List Task)

/-- If nothing will succeed, what has been seen is bound to fail. The places in `pending` are
    still being explored and are left out. -/
structure Front.Sound (pending : List Nat) (f : Front) : Prop where
  seen_fails : ∀ place, f.seen.contains place = true → place ∉ pending →
    f.outcomes offset rest = [] → Task.readingsOf (table place) ⟨offset, rest, []⟩ = []
  waiting_proper : ∀ a ∈ f.waiting, Task.Proper table a.after

/-- A move does some tasks: it keeps fronts sound, and adds what the tasks come to as the worst
    of all. Only the preferred outcome counts. -/
def Move.Does (pending : List Nat) (move : Move) (tasks : List Task) : Prop :=
  ∀ marks f, f.Sound offset rest table pending →
    (move marks f).Sound offset rest table pending ∧
    ((move marks f).outcomes offset rest).head? =
      (f.outcomes offset rest ++ Task.outcomes offset rest tasks marks).head?

end

section

variable {offset : Nat} {rest : List Char} {table : Nat → List Task}

theorem Task.outcomes_seq {first second : Plan} {after : List Task} (marks : List Mark) :
    Task.outcomes offset rest (.read (.seq first second) :: after) marks =
      Task.outcomes offset rest (.read first :: .read second :: after) marks := by
  unfold Task.outcomes
  simp only [Task.readingsOf, Task.readings, Plan.readings, Reader.seq_assoc]

theorem Task.outcomes_alt {place : Nat} {preferred other : Plan} {after : List Task}
    (marks : List Mark) :
    Task.outcomes offset rest (.read (.alt place preferred other) :: after) marks =
      Task.outcomes offset rest (.read preferred :: after) marks ++
        Task.outcomes offset rest (.read other :: after) marks := by
  unfold Task.outcomes
  simp only [Task.readingsOf, Task.readings, Plan.readings, Reader.alt_seq]
  unfold Reader.alt
  rw [List.map_append]

theorem Task.outcomes_group {name : String} {body : Plan} {after : List Task}
    (marks : List Mark) :
    Task.outcomes offset rest (.read (.group name body) :: after) marks =
      Task.outcomes offset rest (.read body :: .close name offset :: after) marks := by
  unfold Task.outcomes
  simp only [Task.readingsOf, Task.readings, Plan.readings]
  unfold Reader.seq Reader.group
  rw [List.flatMap_map]
  simp only [List.flatMap_singleton]

theorem Task.outcomes_close {name : String} {began : Nat} {after : List Task}
    (marks : List Mark) :
    Task.outcomes offset rest (.close name began :: after) marks =
      Task.outcomes offset rest after (⟨name, began, offset⟩ :: marks) := by
  unfold Task.outcomes
  simp only [Task.readingsOf, Task.readings, Reader.seq, List.flatMap_singleton]
  rfl

theorem Task.outcomes_loop {place : Nat} {greedy : Bool} {body : Plan} {after : List Task}
    (hbody : body.nullable = false) (marks : List Mark) :
    Task.outcomes offset rest (.read (.loop place greedy false body) :: after) marks =
      let round := Task.outcomes offset rest
        (.read body :: .read (.loop place greedy false body) :: after) marks
      let leave := Task.outcomes offset rest after marks
      if greedy then round ++ leave else leave ++ round := by
  unfold Task.outcomes
  have heq := Reader.rounds_eq greedy (Plan.advancing_readings hbody)
  simp only [Task.readingsOf, Task.readings, Plan.readings, Bool.false_eq_true, if_false]
  conv => lhs; rw [heq]
  unfold Reader.prefer
  cases greedy
  · simp only [Bool.false_eq_true, if_false, Reader.alt_seq, Reader.skip_seq, Reader.seq_assoc]
    unfold Reader.alt
    rw [List.map_append]
  · simp only [if_true, Reader.alt_seq, Reader.skip_seq, Reader.seq_assoc]
    unfold Reader.alt
    rw [List.map_append]

theorem Task.outcomes_entered {place : Nat} {greedy : Bool} {body : Plan} {after : List Task}
    (marks : List Mark) :
    Task.outcomes offset rest (.read (.loop place greedy true body) :: after) marks =
      Task.outcomes offset rest
        (.read body :: .read (.loop place greedy false body) :: after) marks := by
  unfold Task.outcomes
  simp only [Task.readingsOf, Task.readings, Plan.readings, if_true, Bool.false_eq_true,
    if_false, Reader.seq_assoc]

/-- The tasks at a place of the table fail iff the tasks of an attempt there fail. -/
theorem Task.outcomes_eq_nil_iff {tasks shapes : List Task} (h : shapes = tasks.map shape)
    (marks : List Mark) :
    Task.outcomes offset rest tasks marks = [] ↔
      Task.readingsOf shapes ⟨offset, rest, []⟩ = [] := by
  unfold Task.outcomes
  rw [List.map_eq_nil_iff, h]
  exact (Task.alike_readingsOf_shape tasks).eq_nil_iff rfl

/-! ### Moves -/

/-- Whoever comes second to a place may be dropped. The tasks there are done by `go` while the
    place itself is still being explored. -/
theorem Move.does_visit {pending : List Nat} {place : Nat} {tasks : List Task} (go : Move)
    (hfresh : place ∉ pending) (htable : table place = tasks.map Task.shape)
    (hgo : ∀ marks f, f.finished = none → f.Sound offset rest table (place :: pending) →
      (go marks f).Sound offset rest table (place :: pending) ∧
      ((go marks f).outcomes offset rest).head? =
        (f.outcomes offset rest ++ Task.outcomes offset rest tasks marks).head?) :
    Move.Does offset rest table pending (fun marks f => f.visit place (go marks)) tasks := by
  intro marks f hf
  show Front.Sound _ _ _ _ (f.visit place (go marks)) ∧
    ((f.visit place (go marks)).outcomes offset rest).head? = _
  unfold Front.visit
  by_cases hdrop : (f.finished.isSome || f.seen.contains place) = true
  · -- the visitor is dropped: either it comes too late, or its tasks are bound to fail
    rw [if_pos hdrop]
    refine ⟨hf, ?_⟩
    by_cases hnone : f.outcomes offset rest = []
    · have hunfinished : f.finished = none := by
        have := (List.append_eq_nil_iff.mp hnone).2
        simpa using this
      have hseen : f.seen.contains place = true := by
        simpa [hunfinished] using hdrop
      have hfails := hf.seen_fails place hseen hfresh hnone
      rw [(Task.outcomes_eq_nil_iff htable marks).mpr hfails, List.append_nil]
    · rw [List.head?_append_of_ne_nil _ hnone]
  · -- the first visitor does the tasks, and until it is done the place counts as pending
    rw [if_neg hdrop]
    rw [Bool.or_eq_true, not_or] at hdrop
    have hunfinished : f.finished = none := by simpa using hdrop.1
    obtain ⟨hsound, hhead⟩ := hgo marks { f with seen := f.seen.insert place } hunfinished
      ⟨fun q hq hpending hnone => by
          rw [PlaceSet.contains_insert, Bool.or_eq_true, decide_eq_true_eq] at hq
          rw [List.mem_cons, not_or] at hpending
          rcases hq with hq | rfl
          · exact hf.seen_fails q hq hpending.2 hnone
          · exact absurd rfl hpending.1,
        hf.waiting_proper⟩
    refine ⟨⟨fun q hq hpending hnone => ?_, hsound.waiting_proper⟩, hhead⟩
    by_cases heq : q = place
    · -- nothing has come of the visit, so the tasks at the place have failed
      subst heq
      rw [hnone] at hhead
      have hall := List.head?_eq_none_iff.mp hhead.symm
      exact (Task.outcomes_eq_nil_iff htable marks).mp (List.append_eq_nil_iff.mp hall).2
    · refine hsound.seen_fails q hq ?_ hnone
      rw [List.mem_cons, not_or]
      exact ⟨heq, hpending⟩

/-- One move after another does what both do, the first with preference. -/
theorem Move.Does.andThen {pending : List Nat} {go more : Move} {tasks others : List Task}
    (hgo : Move.Does offset rest table pending go tasks)
    (hmore : Move.Does offset rest table pending more others) (marks : List Mark) (f : Front)
    (hf : f.Sound offset rest table pending) :
    (more marks (go marks f)).Sound offset rest table pending ∧
    ((more marks (go marks f)).outcomes offset rest).head? =
      (f.outcomes offset rest ++ (Task.outcomes offset rest tasks marks ++
        Task.outcomes offset rest others marks)).head? := by
  obtain ⟨hsound, hhead⟩ := hgo marks f hf
  obtain ⟨hsound, hhead'⟩ := hmore marks (go marks f) hsound
  refine ⟨hsound, ?_⟩
  rw [hhead', List.head?_append, hhead, ← List.head?_append, List.append_assoc]

theorem Front.outcomes_wait {f : Front} (h : f.finished = none) (a : Attempt) :
    (f.wait a).outcomes offset rest = f.outcomes offset rest ++ a.outcomes offset rest := by
  unfold outcomes wait
  simp [h, List.flatMap_append]

/-- Waiting for a character does the tasks of a set. -/
theorem Front.wait_does {pending : List Nat} {place : Nat} {set : CharSet} {after : List Task}
    (hafter : Task.Proper table after) (marks : List Mark) (f : Front) (hopen : f.finished = none)
    (hf : f.Sound offset rest table pending) :
    (f.wait ⟨set, after, marks⟩).Sound offset rest table pending ∧
    ((f.wait ⟨set, after, marks⟩).outcomes offset rest).head? =
      (f.outcomes offset rest ++
        Task.outcomes offset rest (.read (.one place set) :: after) marks).head? := by
  have houtcomes : (f.wait ⟨set, after, marks⟩).outcomes offset rest =
      f.outcomes offset rest ++ Attempt.outcomes offset rest ⟨set, after, marks⟩ :=
    outcomes_wait hopen _
  refine ⟨⟨fun q hq hpending hnone => ?_, ?_⟩, ?_⟩
  · rw [houtcomes] at hnone
    exact hf.seen_fails q hq hpending (List.append_eq_nil_iff.mp hnone).1
  · intro a ha
    rcases List.mem_cons.mp ha with rfl | ha
    · exact hafter
    · exact hf.waiting_proper a ha
  · rw [houtcomes]
    rfl

theorem Front.finish_does {pending : List Nat} :
    Move.Does offset rest table pending (fun marks f => f.finish ⟨offset, marks⟩) [] := by
  intro marks f hf
  show (f.finish ⟨offset, marks⟩).Sound offset rest table pending ∧
    ((f.finish ⟨offset, marks⟩).outcomes offset rest).head? = _
  unfold Front.finish
  by_cases hdone : f.finished.isSome = true
  · -- somebody preferred has finished before
    rw [if_pos hdone]
    refine ⟨hf, ?_⟩
    have hsome : f.outcomes offset rest ≠ [] := by
      intro hnone
      have := (List.append_eq_nil_iff.mp hnone).2
      rw [Option.toList_eq_nil_iff] at this
      rw [this] at hdone
      cases hdone
    rw [List.head?_append_of_ne_nil _ hsome]
  · rw [if_neg hdone]
    have hopen : f.finished = none := by simpa using hdone
    refine ⟨⟨fun q _ _ hnone => ?_, hf.waiting_proper⟩, ?_⟩
    · exact absurd (List.append_eq_nil_iff.mp hnone).2 (by simp)
    · unfold Front.outcomes
      rw [hopen]
      simp only [Option.toList_none, List.append_nil]
      rfl

/-! ### Going through a plan -/

theorem Task.mem_firstsOf_read {q : Nat} {p : Plan} {after : List Task} :
    q ∈ firstsOf (.read p :: after) ↔
      q ∈ p.firsts ∨ (p.nullable = true ∧ q ∈ firstsOf after) := by
  rw [firstsOf]
  by_cases h : p.nullable = true <;> simp [h]

theorem Plan.mem_firsts_seq {q : Nat} {first second : Plan} :
    q ∈ (Plan.seq first second).firsts ↔
      q ∈ first.firsts ∨ (first.nullable = true ∧ q ∈ second.firsts) := by
  rw [firsts]
  by_cases h : first.nullable = true <;> simp [h]

/-- At a choice the preferred alternative goes first. -/
theorem Plan.enter_alt_does {pending : List Nat} {place : Nat} {preferred other : Plan}
    {after : List Task} (go goOn : Move) (hfresh : place ∉ pending)
    (htable : table place = .read (.alt place preferred other) :: after.map Task.shape)
    (hgo : Move.Does offset rest table (place :: pending) go (.read preferred :: after))
    (hgoOn : Move.Does offset rest table (place :: pending) goOn (.read other :: after)) :
    Move.Does offset rest table pending
      (fun marks f => f.visit place fun f => goOn marks (go marks f))
      (.read (.alt place preferred other) :: after) := by
  refine Move.does_visit (fun marks f => goOn marks (go marks f)) hfresh htable ?_
  intro marks f _ hf
  rw [Task.outcomes_alt]
  exact hgo.andThen hgoOn marks f hf

/-- At the junction of a loop one more round and leaving the loop are tried. -/
theorem Plan.junction_does {pending : List Nat} {place : Nat} {greedy : Bool} {body : Plan}
    {after : List Task} {round leave : Move} (hfresh : place ∉ pending)
    (htable : table place = .read (.loop place greedy false body) :: after.map Task.shape)
    (hbody : body.nullable = false)
    (hround : Move.Does offset rest table (place :: pending) round
      (.read body :: .read (.loop place greedy false body) :: after))
    (hleave : Move.Does offset rest table (place :: pending) leave after) :
    Move.Does offset rest table pending (junction place greedy round leave)
      (.read (.loop place greedy false body) :: after) := by
  unfold junction
  refine Move.does_visit (fun marks f =>
    if greedy then leave marks (round marks f) else round marks (leave marks f)) hfresh htable ?_
  intro marks f _ hf
  rw [Task.outcomes_loop hbody]
  cases greedy
  · exact hleave.andThen hround marks f hf
  · exact hround.andThen hleave marks f hf

/-- Going through an orderly plan does what the plan reads. What comes behind the plan matters at
    this spot only if the plan may read nothing. -/
theorem Plan.enter_does {p : Plan} {after : List Task} {go : Move} {pending : List Nat}
    (hfollows : p.Follows table (after.map Task.shape))
    (horderly : p.Orderly (Task.firstsOf after)) (hafter : Task.Proper table after)
    (hpending : ∀ q ∈ pending, q ∉ Task.firstsOf (.read p :: after))
    (hgo : p.nullable = true → ∀ pending, (∀ q ∈ pending, q ∉ Task.firstsOf after) →
      Move.Does offset rest table pending go after) :
    Move.Does offset rest table pending (p.enter ⟨offset, rest.isEmpty⟩ after go)
      (.read p :: after) := by
  simp only [Task.mem_firstsOf_read, not_or, not_and] at hpending
  -- by induction on the plan: whoever enters a part goes on with the parts behind it
  induction p generalizing after go pending with
  | empty =>
    have hdo := hgo rfl pending fun q hq => (hpending q hq).2 rfl
    intro marks f hf
    have hsame : Task.outcomes offset rest (.read .empty :: after) marks =
        Task.outcomes offset rest after marks := by
      unfold Task.outcomes
      simp only [Task.readingsOf, Task.readings, Plan.readings, Reader.skip_seq]
    rw [hsame]
    exact hdo marks f hf
  | one place set =>
    refine Move.does_visit _ ?_ hfollows fun marks f hopen hf =>
      Front.wait_does hafter marks f hopen hf
    intro hplace
    exact (hpending place hplace).1 (List.mem_singleton_self place)
  | start =>
    intro marks f hf
    unfold enter Task.outcomes
    simp only [Task.readingsOf, Task.readings, Plan.readings, Reader.seq, Reader.start]
    by_cases h0 : offset = 0
    · rw [if_pos h0, if_pos h0, List.flatMap_singleton]
      exact hgo rfl pending (fun q hq => (hpending q hq).2 rfl) marks f hf
    · rw [if_neg h0, if_neg h0, List.flatMap_nil, List.map_nil, List.append_nil]
      exact ⟨hf, rfl⟩
  | finish =>
    intro marks f hf
    unfold enter Task.outcomes
    simp only [Task.readingsOf, Task.readings, Plan.readings, Reader.seq, Reader.finish]
    by_cases hend : rest.isEmpty = true
    · rw [if_pos hend, if_pos hend, List.flatMap_singleton]
      exact hgo rfl pending (fun q hq => (hpending q hq).2 rfl) marks f hf
    · rw [if_neg hend, if_neg hend, List.flatMap_nil, List.map_nil, List.append_nil]
      exact ⟨hf, rfl⟩
  | seq first second ihf ihs =>
    obtain ⟨hfirst, hsecond⟩ := hfollows
    obtain ⟨hofirst, hosecond⟩ := horderly
    simp only [mem_firsts_seq, not_or, not_and] at hpending
    intro marks f hf
    rw [Task.outcomes_seq]
    refine @ihf (.read second :: after) (second.enter _ after go) pending hfirst hofirst
      ⟨hsecond, hosecond, hafter⟩ ?_ ?_ marks f hf
    · intro hfn pending hpending
      simp only [Task.mem_firstsOf_read, not_or, not_and] at hpending
      refine ihs hsecond hosecond hafter (fun hsn => hgo ?_) hpending
      unfold nullable
      rw [hfn, hsn, Bool.and_self]
    · intro q hq
      obtain ⟨⟨hqf, hqs⟩, hqn⟩ := hpending q hq
      refine ⟨hqf, fun hfn hmem => ?_⟩
      rcases Task.mem_firstsOf_read.mp hmem with hmem | ⟨hsn, hmem⟩
      · exact hqs hfn hmem
      · refine hqn ?_ hmem
        unfold nullable
        rw [hfn, hsn, Bool.and_self]
  | alt place preferred other ihp iho =>
    obtain ⟨htable, hpreferred, hother⟩ := hfollows
    obtain ⟨hnp, hno, hnext, hopreferred, hoother⟩ := horderly
    unfold nullable at hgo hpending
    unfold firsts at hpending
    simp only [List.mem_cons, List.mem_append, not_or] at hpending
    refine enter_alt_does (preferred.enter _ after go) (other.enter _ after go)
      (fun hq => (hpending place hq).1.1 rfl) htable ?_ ?_
    · refine ihp hpreferred hopreferred hafter (fun hn => hgo (by simp [hn])) ?_
      intro q hq
      rcases List.mem_cons.mp hq with rfl | hq
      · exact ⟨hnp, fun hn => hnext (by simp [hn])⟩
      · exact ⟨(hpending q hq).1.2.1, fun hn => (hpending q hq).2 (by simp [hn])⟩
    · refine iho hother hoother hafter (fun hn => hgo (by simp [hn])) ?_
      intro q hq
      rcases List.mem_cons.mp hq with rfl | hq
      · exact ⟨hno, fun hn => hnext (by simp [hn])⟩
      · exact ⟨(hpending q hq).1.2.2, fun hn => (hpending q hq).2 (by simp [hn])⟩
  | group name body ih =>
    intro marks f hf
    rw [Task.outcomes_group]
    refine @ih (.close name offset :: after) (fun marks => go (⟨name, offset, offset⟩ :: marks))
      pending hfollows horderly hafter ?_ hpending marks f hf
    intro hn pending hpending marks f hf
    rw [Task.outcomes_close]
    exact hgo hn pending hpending (⟨name, offset, offset⟩ :: marks) f hf
  | loop place greedy entered body ih =>
    obtain ⟨htable, hbody⟩ := hfollows
    obtain ⟨hadvance, hnb, hnext, hobody⟩ := horderly
    -- the round ends at the junction of the same loop, which is not reached at this spot
    have hround : ∀ go pending, (∀ q ∈ pending, q ∉ body.firsts) →
        Move.Does offset rest table pending
          (body.enter ⟨offset, rest.isEmpty⟩ (.read (.loop place greedy false body) :: after) go)
          (.read body :: .read (.loop place greedy false body) :: after) := by
      intro go pending hpending
      refine ih hbody hobody ⟨⟨htable, hbody⟩, ⟨hadvance, hnb, hnext, hobody⟩, hafter⟩ ?_ ?_
      · intro hn
        rw [hadvance] at hn
        cases hn
      · intro q hq
        refine ⟨hpending q hq, fun hn => ?_⟩
        rw [hadvance] at hn
        cases hn
    unfold firsts nullable at hpending
    unfold nullable at hgo
    cases entered with
    | true =>
      intro marks f hf
      rw [Task.outcomes_entered]
      exact hround _ pending (fun q hq => (hpending q hq).1) marks f hf
    | false =>
      simp only [Bool.false_eq_true, if_false, List.mem_cons, not_or] at hpending
      refine junction_does (fun hq => (hpending place hq).1.1 rfl) htable hadvance ?_ ?_
      · refine hround giveUp (place :: pending) fun q hq => ?_
        rcases List.mem_cons.mp hq with rfl | hq
        · exact hnb
        · exact (hpending q hq).1.2
      · refine hgo rfl (place :: pending) fun q hq => ?_
        rcases List.mem_cons.mp hq with rfl | hq
        · exact hnext
        · exact (hpending q hq).2 rfl

/-- Doing the tasks of an attempt does what they read. -/
theorem follow_does (offset : Nat) (rest : List Char) {tasks : List Task} {pending : List Nat}
    (htasks : Task.Proper table tasks)
    (hpending : ∀ q ∈ pending, q ∉ Task.firstsOf tasks) :
    Move.Does offset rest table pending (follow ⟨offset, rest.isEmpty⟩ tasks) tasks := by
  induction tasks generalizing pending with
  | nil => exact Front.finish_does
  | cons task after ih =>
    cases task with
    | read plan =>
      obtain ⟨hfollows, horderly, hafter⟩ := htasks
      exact Plan.enter_does hfollows horderly hafter hpending fun _ _ hpending =>
        ih hafter hpending
    | close name began =>
      intro marks f hf
      rw [Task.outcomes_close]
      exact ih htasks hpending (⟨name, began, offset⟩ :: marks) f hf

/-! ### Reading a text -/

theorem Front.sound_empty : Front.empty.Sound offset rest table [] where
  seen_fails place hseen := by
    unfold empty at hseen
    rw [PlaceSet.contains_empty] at hseen
    cases hseen
  waiting_proper a ha := absurd ha List.not_mem_nil

/-- Behind a character there are the readings of the attempts that waited for it. -/
theorem advance_does (offset : Nat) (rest : List Char) {c : Char} {waiting : List Attempt}
    (hproper : ∀ a ∈ waiting, Task.Proper table a.after) :
    (advance ⟨offset + c.utf8Size, rest.isEmpty⟩ c waiting).Sound (offset + c.utf8Size) rest
      table [] ∧
    ((advance ⟨offset + c.utf8Size, rest.isEmpty⟩ c waiting).outcomes
      (offset + c.utf8Size) rest).head? =
      (waiting.reverse.flatMap (·.outcomes offset (c :: rest))).head? := by
  induction waiting with
  | nil => exact ⟨Front.sound_empty, rfl⟩
  | cons a better ih =>
    obtain ⟨hsound, hhead⟩ := ih fun a ha => hproper a (List.mem_cons_of_mem _ ha)
    rw [List.reverse_cons, List.flatMap_append, List.flatMap_singleton, List.head?_append,
      ← hhead, ← List.head?_append, advance]
    by_cases hc : a.set.contains c = true
    · have ha : a.outcomes offset (c :: rest) =
          Task.outcomes (offset + c.utf8Size) rest a.after a.marks := by
        unfold Attempt.outcomes Task.outcomes Reader.seq Reader.one
        simp [hc]
      rw [if_pos hc, ha]
      exact follow_does _ rest (hproper a List.mem_cons_self) (List.forall_mem_nil _) a.marks _
        hsound
    · have ha : a.outcomes offset (c :: rest) = [] := by
        unfold Attempt.outcomes Reader.seq Reader.one
        simp [hc]
      rw [if_neg hc, ha, List.append_nil]
      exact ⟨hsound, rfl⟩

/-- A front comes to the first of its outcomes, or to the best reading known before. -/
theorem bestFrom_eq {f : Front} {known : Option Reading}
    (hproper : ∀ a ∈ f.waiting, Task.Proper table a.after) :
    bestFrom offset f known rest = (f.outcomes offset rest).head?.or known := by
  induction rest generalizing offset f known with
  | nil =>
    -- whoever still waits for a character at the end of the text has failed
    have hdead : f.waiting.reverse.flatMap (·.outcomes offset []) = [] := by
      rw [List.flatMap_eq_nil_iff]
      intro a _
      rfl
    unfold bestFrom Front.outcomes
    rw [hdead, List.nil_append, Option.head?_toList]
  | cons c cs ih =>
    unfold bestFrom Front.outcomes
    rw [List.head?_append, Option.head?_toList, Option.or_assoc]
    by_cases hnone : f.waiting.isEmpty = true
    · rw [if_pos hnone]
      rw [List.isEmpty_iff.mp hnone]
      rfl
    · rw [if_neg hnone]
      obtain ⟨hsound, hhead⟩ := advance_does offset cs hproper (c := c)
      rw [ih hsound.waiting_proper, hhead]

/-- **Preferred reading**: an orderly plan reads a text as the first of its readings says. -/
theorem Plan.best?_eq {p : Plan} (hfollows : p.Follows table []) (horderly : p.Orderly []) :
    p.best? offset rest = (p.readings ⟨offset, rest, []⟩).head?.map Cursor.reading := by
  have hproper : Task.Proper table [.read p] := ⟨hfollows, horderly, trivial⟩
  obtain ⟨hsound, hhead⟩ := follow_does offset rest hproper (List.forall_mem_nil _) [] .empty
    Front.sound_empty
  unfold best?
  rw [bestFrom_eq hsound.waiting_proper, hhead, Option.or_none]
  have houtcomes : Front.empty.outcomes offset rest = [] := rfl
  rw [houtcomes, List.nil_append]
  unfold Task.outcomes
  simp only [Task.readingsOf, Task.readings, Reader.seq_skip, List.head?_map]

end

end TreeQuery.Pattern
