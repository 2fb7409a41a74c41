import TreeQuery.Proofs.Pattern.Liveness

/-! # Indifference — what must fail makes no difference

    Tasks that cannot be done leave attempts behind that come to nothing, and
    places seen that nobody could go on from. A front that has gone through them
    reports what it would have reported without them.

    * **Idle moves**: a front to which only attempts and places have been added
      that must fail.
    * **Agreeing fronts**: two fronts that differ in such attempts and places only.
      Every move keeps them so.
    * **Fresh start**: behind attempts that must fail, tasks come to what they come
      to on their own.
-/

namespace TreeQuery.Pattern

/-- The places of the plans that tasks have still to read. -/
def Task.placesOf : List Task → List Nat
  | [] => []
  | .read plan :: tasks => plan.places ++ placesOf tasks
  | .close _ _ :: tasks => placesOf tasks

section

variable (offset : Nat) (rest : List Char) (table : Nat → List Task)

/-- The attempt must fail. -/
structure Attempt.Dead (a : Attempt) : Prop where
  fails : ¬ a.Live offset rest
  follow : Task.Follow table a.after

/-! ### Idle moves -/

/-- A front that differs from another by attempts that must fail, and by places that cannot be gone
    on from. -/
structure Front.Idles (f g : Front) : Prop where
  finished : g.finished = f.finished
  waiting : ∃ new, g.waiting = new ++ f.waiting ∧ ∀ a ∈ new, a.Dead offset rest table
  seen : ∀ q, Task.Live (table q) offset rest → g.seen.contains q = f.seen.contains q

/-! ### Agreeing fronts -/

variable (places : List Nat)

/-- Two lists of attempts with the same members, in the same order, but for those that must fail.
    The common members stay within some places. -/
inductive Attempt.Agree : List Attempt → List Attempt → Prop where
  | nil : Agree [] []
  | both {a : Attempt} {l l' : List Attempt} :
      Task.Follow table a.after → Task.placesOf a.after ⊆ places → Agree l l' →
      Agree (a :: l) (a :: l')
  | left {a : Attempt} {l l' : List Attempt} :
      a.Dead offset rest table → Agree l l' → Agree (a :: l) l'
  | right {a : Attempt} {l l' : List Attempt} :
      a.Dead offset rest table → Agree l l' → Agree l (a :: l')

/-- Two fronts that differ in what must fail only. Of the places seen only some count. -/
structure Front.Agrees (f g : Front) : Prop where
  finished : g.finished = f.finished
  waiting : Attempt.Agree offset rest table places f.waiting g.waiting
  seen : ∀ q ∈ places, Task.Live (table q) offset rest → g.seen.contains q = f.seen.contains q

/-- A move that does some tasks keeps fronts in agreement, and idles if the tasks must fail. -/
structure Move.Indifferent (move : Move) (tasks : List Task) : Prop where
  agrees : ∀ marks f g, Front.Agrees offset rest table places f g →
    Front.Agrees offset rest table places (move marks f) (move marks g)
  idles : ¬ Task.Live tasks offset rest → ∀ marks f,
    Front.Idles offset rest table f (move marks f)

end

section

variable {offset : Nat} {rest : List Char} {table : Nat → List Task} {places : List Nat}

namespace Front.Idles

theorem refl (f : Front) : f.Idles offset rest table f :=
  ⟨rfl, ⟨[], rfl, List.forall_mem_nil _⟩, fun _ _ => rfl⟩

theorem trans {f g h : Front} (hfg : f.Idles offset rest table g)
    (hgh : g.Idles offset rest table h) : f.Idles offset rest table h where
  finished := hgh.finished.trans hfg.finished
  waiting := by
    obtain ⟨new, hnew, hdead⟩ := hfg.waiting
    obtain ⟨more, hmore, hdead'⟩ := hgh.waiting
    refine ⟨more ++ new, by rw [hmore, hnew, List.append_assoc], ?_⟩
    intro a ha
    rcases List.mem_append.mp ha with ha | ha
    · exact hdead' a ha
    · exact hdead a ha
  seen q hq := (hgh.seen q hq).trans (hfg.seen q hq)

/-- Waiting for a character that does not come, or comes in vain. -/
theorem wait {place : Nat} {set : CharSet} {after : List Task} (f : Front) (marks : List Mark)
    (hafter : Task.Follow table after)
    (hdead : ¬ Task.Live (.read (.one place set) :: after) offset rest) :
    f.Idles offset rest table (f.wait ⟨set, after, marks⟩) := by
  refine ⟨rfl, ⟨[⟨set, after, marks⟩], rfl, ?_⟩, fun _ _ => rfl⟩
  intro a ha
  obtain rfl := List.mem_singleton.mp ha
  refine ⟨?_, hafter⟩
  rintro ⟨x, xs, hrest, hx, turns, hrun⟩
  subst hrest
  exact hdead ⟨turns, .one hx hrun⟩

/-- Visiting a place whose tasks must fail. -/
theorem visit {place : Nat} {tasks : List Task} {go : Front → Front} (f : Front)
    (htable : table place = tasks.map Task.shape) (hdead : ¬ Task.Live tasks offset rest)
    (hgo : ∀ g : Front, g.Idles offset rest table (go g)) :
    f.Idles offset rest table (f.visit place go) := by
  unfold Front.visit
  split
  · exact refl f
  · have hseen : f.Idles offset rest table { f with seen := f.seen.insert place } := by
      refine ⟨rfl, ⟨[], rfl, List.forall_mem_nil _⟩, ?_⟩
      rintro q ⟨turns, hrun⟩
      have hne : place ≠ q := by
        rintro rfl
        exact hdead ⟨turns, (Task.succeeds_iff htable).mp hrun⟩
      simp [hne]
    exact hseen.trans (hgo _)

end Front.Idles

/-! ### Agreement is kept -/

theorem Attempt.Agree.append_left {new l l' : List Attempt}
    (hnew : ∀ a ∈ new, a.Dead offset rest table) (h : Agree offset rest table places l l') :
    Agree offset rest table places (new ++ l) l' := by
  induction new with
  | nil => exact h
  | cons a new ih =>
    exact .left (hnew a List.mem_cons_self) (ih fun b hb => hnew b (List.mem_cons_of_mem a hb))

theorem Attempt.Agree.append_right {new l l' : List Attempt}
    (hnew : ∀ a ∈ new, a.Dead offset rest table) (h : Agree offset rest table places l l') :
    Agree offset rest table places l (new ++ l') := by
  induction new with
  | nil => exact h
  | cons a new ih =>
    exact .right (hnew a List.mem_cons_self) (ih fun b hb => hnew b (List.mem_cons_of_mem a hb))

namespace Front.Agrees

/-- Idle moves on either side do not matter. -/
theorem of_idles {f f' g g' : Front} (h : f.Agrees offset rest table places g)
    (hf : f.Idles offset rest table f') (hg : g.Idles offset rest table g') :
    f'.Agrees offset rest table places g' where
  finished := by rw [hg.finished, h.finished, hf.finished]
  waiting := by
    obtain ⟨new, hnew, hdead⟩ := hf.waiting
    obtain ⟨more, hmore, hdead'⟩ := hg.waiting
    rw [hnew, hmore]
    exact (h.waiting.append_left hdead).append_right hdead'
  seen q hq hlive := by rw [hg.seen q hlive, hf.seen q hlive, h.seen q hq hlive]

theorem wait {f g : Front} (h : f.Agrees offset rest table places g) {set : CharSet}
    {after : List Task} (marks : List Mark) (hafter : Task.Follow table after)
    (hplaces : Task.placesOf after ⊆ places) :
    (f.wait ⟨set, after, marks⟩).Agrees offset rest table places (g.wait ⟨set, after, marks⟩) :=
  ⟨h.finished, .both hafter hplaces h.waiting, h.seen⟩

theorem finish {f g : Front} (h : f.Agrees offset rest table places g) (r : Reading) :
    (f.finish r).Agrees offset rest table places (g.finish r) := by
  unfold Front.finish
  rw [h.finished]
  split
  · exact h
  · exact ⟨rfl, h.waiting, h.seen⟩

/-- If the tasks at a place can be done, agreeing fronts agree on whether it has been visited. -/
theorem visit {f g : Front} {place : Nat} {go : Front → Front}
    (h : f.Agrees offset rest table places g) (hplace : place ∈ places)
    (hlive : Task.Live (table place) offset rest)
    (hgo : ∀ f g : Front, f.Agrees offset rest table places g →
      (go f).Agrees offset rest table places (go g)) :
    (f.visit place go).Agrees offset rest table places (g.visit place go) := by
  unfold Front.visit
  rw [h.finished, h.seen place hplace hlive]
  split
  · exact h
  · apply hgo
    refine ⟨rfl, h.waiting, ?_⟩
    intro q hq hqlive
    have hsame := h.seen q hq hqlive
    simp [hsame]

end Front.Agrees

namespace Move.Indifferent

theorem giveUp (tasks : List Task) :
    Move.Indifferent offset rest table places giveUp tasks :=
  ⟨fun _ _ _ h => h, fun _ _ f => .refl f⟩

/-- The tasks at a place are done by its first visitor. -/
theorem visit {place : Nat} {tasks : List Task} {go : Move} (hplace : place ∈ places)
    (htable : table place = tasks.map Task.shape)
    (hgo : Move.Indifferent offset rest table places go tasks) :
    Move.Indifferent offset rest table places (fun marks f => f.visit place (go marks)) tasks := by
  have hidles : ¬ Task.Live tasks offset rest → ∀ marks f,
      Front.Idles offset rest table f (f.visit place (go marks)) := by
    intro hdead marks f
    exact .visit f htable hdead (hgo.idles hdead marks)
  refine ⟨?_, hidles⟩
  intro marks f g h
  by_cases hlive : Task.Live tasks offset rest
  · obtain ⟨turns, hrun⟩ := hlive
    have hlive : Task.Live (table place) offset rest :=
      ⟨turns, (Task.succeeds_iff htable).mpr hrun⟩
    exact h.visit hplace hlive (hgo.agrees marks)
  · -- one front may have been there and the other not, but nothing comes of it
    exact h.of_idles (hidles hlive marks f) (hidles hlive marks g)

/-- Two moves one after the other do tasks that can be done if those of either move can. -/
theorem andThen {go more : Move} {tasks others all : List Task}
    (hgo : Move.Indifferent offset rest table places go tasks)
    (hmore : Move.Indifferent offset rest table places more others)
    (htasks : Task.Live tasks offset rest → Task.Live all offset rest)
    (hothers : Task.Live others offset rest → Task.Live all offset rest) :
    Move.Indifferent offset rest table places (fun marks f => more marks (go marks f)) all where
  agrees marks f g h := hmore.agrees marks _ _ (hgo.agrees marks f g h)
  idles hdead marks f :=
    (hgo.idles (fun hlive => hdead (htasks hlive)) marks f).trans
      (hmore.idles (fun hlive => hdead (hothers hlive)) marks _)

/-- A move does other tasks as well, if those can be done when its own can. -/
theorem mono {move : Move} {tasks all : List Task}
    (hmove : Move.Indifferent offset rest table places move tasks)
    (htasks : Task.Live tasks offset rest → Task.Live all offset rest) :
    Move.Indifferent offset rest table places move all :=
  ⟨hmove.agrees, fun hdead => hmove.idles fun hlive => hdead (htasks hlive)⟩

theorem junction {place : Nat} {greedy : Bool} {body : Plan} {after : List Task}
    {round leave : Move} (hplace : place ∈ places)
    (htable : table place = .read (.loop place greedy false body) :: after.map Task.shape)
    (hround : Move.Indifferent offset rest table places round
      (.read body :: .read (.loop place greedy false body) :: after))
    (hleave : Move.Indifferent offset rest table places leave after) :
    Move.Indifferent offset rest table places (junction place greedy round leave)
      (.read (.loop place greedy false body) :: after) := by
  have hagain : Task.Live (.read body :: .read (.loop place greedy false body) :: after) offset
      rest → Task.Live (.read (.loop place greedy false body) :: after) offset rest :=
    fun ⟨turns, hrun⟩ => ⟨turns + 1, .round hrun⟩
  have hout : Task.Live after offset rest →
      Task.Live (.read (.loop place greedy false body) :: after) offset rest :=
    fun ⟨turns, hrun⟩ => ⟨turns + 1, .leave hrun⟩
  unfold Pattern.junction
  cases greedy
  · exact visit hplace htable (hleave.andThen hround hout hagain)
  · exact visit hplace htable (hround.andThen hleave hagain hout)

end Move.Indifferent

/-- Going through a plan is indifferent if going on behind it is. -/
theorem Plan.enter_indifferent {p : Plan} {after : List Task} {go : Move}
    (hfollows : p.Follows table (after.map Task.shape)) (hafter : Task.Follow table after)
    (hplaces : p.places ⊆ places) (hmore : Task.placesOf after ⊆ places)
    (hgo : Move.Indifferent offset rest table places go after) :
    Move.Indifferent offset rest table places (p.enter ⟨offset, rest.isEmpty⟩ after go)
      (.read p :: after) := by
  induction p generalizing after go with
  | empty => exact hgo.mono (Exists.imp fun _ hrun => .empty hrun)
  | one place set =>
    refine Move.Indifferent.visit (hplaces (List.mem_singleton_self place)) hfollows ⟨?_, ?_⟩
    · exact fun marks f g h => h.wait marks hafter hmore
    · exact fun hdead marks f => .wait f marks hafter hdead
  | start =>
    rw [enter_start]
    split
    · next hstart =>
      exact hgo.mono (Exists.imp fun _ hrun => Task.succeeds_start_iff.mpr ⟨hstart, hrun⟩)
    · exact .giveUp _
  | finish =>
    rw [enter_finish]
    split
    · next hend =>
      have hrest : rest = [] := List.isEmpty_iff.mp hend
      exact hgo.mono (Exists.imp fun _ hrun => Task.succeeds_finish_iff.mpr ⟨hrest, hrun⟩)
    · exact .giveUp _
  | seq first second ihf ihs =>
    obtain ⟨hfirst, hsecond⟩ := hfollows
    unfold Plan.places at hplaces
    obtain ⟨hpf, hps⟩ := List.append_subset.mp hplaces
    have hrest := ihs hsecond hafter hps hmore hgo
    have hall := @ihf (.read second :: after) _ hfirst ⟨hsecond, hafter⟩ hpf
      (List.append_subset.mpr ⟨hps, hmore⟩) hrest
    exact hall.mono (Exists.imp fun _ hrun => .seq hrun)
  | alt place preferred other ihp iho =>
    obtain ⟨htable, hpreferred, hother⟩ := hfollows
    unfold Plan.places at hplaces
    obtain ⟨hplace, hparts⟩ := List.cons_subset.mp hplaces
    obtain ⟨hpp, hpo⟩ := List.append_subset.mp hparts
    refine Move.Indifferent.visit hplace htable ?_
    exact (ihp hpreferred hafter hpp hmore hgo).andThen (iho hother hafter hpo hmore hgo)
      (fun hlive => hlive.elim fun turns hrun => ⟨turns + 1, .preferred hrun⟩)
      (fun hlive => hlive.elim fun turns hrun => ⟨turns + 1, .other hrun⟩)
  | group name body ih =>
    have hclose : Move.Indifferent offset rest table places
        (fun marks => go (⟨name, offset, offset⟩ :: marks)) (.close name offset :: after) := by
      refine ⟨fun marks f g h => hgo.agrees _ f g h, fun hdead marks f => hgo.idles ?_ _ f⟩
      exact fun hlive => hdead (hlive.imp fun _ hrun => .close hrun)
    have hall := @ih (.close name offset :: after) _ hfollows hafter hplaces hmore hclose
    exact hall.mono (Exists.imp fun _ hrun => .group hrun)
  | loop place greedy entered body ih =>
    obtain ⟨htable, hbody⟩ := hfollows
    have hsubset := hplaces
    unfold Plan.places at hplaces
    obtain ⟨hplace, hpb⟩ := List.cons_subset.mp hplaces
    have hagain : Task.Follow table (.read (.loop place greedy false body) :: after) :=
      ⟨⟨htable, hbody⟩, hafter⟩
    have hwithin : Task.placesOf (.read (.loop place greedy false body) :: after) ⊆ places :=
      List.append_subset.mpr ⟨hsubset, hmore⟩
    have hround : ∀ {more : Move}, Move.Indifferent offset rest table places more
        (.read (.loop place greedy false body) :: after) →
        Move.Indifferent offset rest table places
          (body.enter ⟨offset, rest.isEmpty⟩ (.read (.loop place greedy false body) :: after) more)
          (.read body :: .read (.loop place greedy false body) :: after) :=
      fun h => ih hbody hagain hpb hwithin h
    have hjunction := Move.Indifferent.junction hplace htable (hround (.giveUp _)) hgo
    cases entered with
    | false => exact hjunction
    | true => exact (hround hjunction).mono (Exists.imp fun _ hrun => .enter hrun)

/-- Doing the tasks of an attempt is indifferent to what must fail. -/
theorem follow_indifferent {tasks : List Task} (htasks : Task.Follow table tasks)
    (hplaces : Task.placesOf tasks ⊆ places) :
    Move.Indifferent offset rest table places (follow ⟨offset, rest.isEmpty⟩ tasks) tasks := by
  induction tasks with
  | nil =>
    refine ⟨fun marks f g h => h.finish _, fun hdead => ?_⟩
    exact absurd ⟨0, .nil 0 offset rest⟩ hdead
  | cons task after ih =>
    cases task with
    | read plan =>
      obtain ⟨hplan, hafter⟩ := List.append_subset.mp hplaces
      exact Plan.enter_indifferent htasks.1 htasks.2 hplan hafter (ih htasks.2 hafter)
    | close name began =>
      have hafter := ih htasks hplaces
      refine ⟨fun marks f g h => hafter.agrees _ f g h, fun hdead marks f => hafter.idles ?_ _ f⟩
      exact fun hlive => hdead (hlive.imp fun _ hrun => .close hrun)

/-! ### Reading a text -/

/-- An attempt that must fail idles behind the next character. -/
theorem Attempt.Dead.idles {a : Attempt} {x : Char} {xs : List Char}
    (h : a.Dead offset (x :: xs) table) (hx : a.set.contains x = true) (f : Front) :
    f.Idles (offset + x.utf8Size) xs table
      (Pattern.follow ⟨offset + x.utf8Size, xs.isEmpty⟩ a.after a.marks f) := by
  have hmove := @follow_indifferent (offset + x.utf8Size) xs table _ _ h.follow
    (List.Subset.refl _)
  have hdead : ¬ Task.Live a.after (offset + x.utf8Size) xs :=
    fun hlive => h.fails ⟨x, xs, rfl, hx, hlive⟩
  exact hmove.idles hdead a.marks f

theorem advance_agrees {x : Char} {xs : List Char} {l l' : List Attempt}
    (h : Attempt.Agree offset (x :: xs) table places l l') :
    (advance ⟨offset + x.utf8Size, xs.isEmpty⟩ x l).Agrees (offset + x.utf8Size) xs table places
      (advance ⟨offset + x.utf8Size, xs.isEmpty⟩ x l') := by
  -- by induction on the agreement: what only one side has must fail behind the character, too
  induction h with
  | nil => exact ⟨rfl, .nil, fun _ _ _ => rfl⟩
  | @both a l l' hfollow hplaces _ ih =>
    unfold advance
    split
    · exact (follow_indifferent hfollow hplaces).agrees a.marks _ _ ih
    · exact ih
  | @left a l l' hdead _ ih =>
    conv => arg 5; unfold advance
    split
    · next hx => exact ih.of_idles (hdead.idles hx _) (.refl _)
    · exact ih
  | @right a l l' hdead _ ih =>
    conv => arg 6; unfold advance
    split
    · next hx => exact ih.of_idles (.refl _) (hdead.idles hx _)
    · exact ih

/-- Agreeing fronts come to the same reading. -/
theorem Front.Agrees.bestFrom_eq {f g : Front} (h : f.Agrees offset rest table places g)
    (known : Option Reading) :
    bestFrom offset g known rest = bestFrom offset f known rest := by
  induction rest generalizing offset f g known with
  | nil =>
    unfold bestFrom
    rw [h.finished]
  | cons x xs ih =>
    rw [bestFrom_cons, bestFrom_cons, h.finished]
    exact ih (advance_agrees h.waiting) _

/-- Nothing has been attempted yet, and none of some places has been seen. -/
structure Front.Fresh (places : List Nat) (f : Front) : Prop where
  waiting : f.waiting = []
  finished : f.finished = none
  seen : ∀ q ∈ places, f.seen.contains q = false

theorem Front.fresh_empty (places : List Nat) : Front.empty.Fresh places :=
  ⟨rfl, rfl, fun q _ => PlaceSet.contains_empty q⟩

/-- All attempts that have been added to a fresh front idly must fail. -/
theorem Front.Idles.dead {f g : Front} (h : f.Idles offset rest table g)
    (hf : f.Fresh places) : ∀ a ∈ g.waiting, a.Dead offset rest table := by
  obtain ⟨new, hnew, hdead⟩ := h.waiting
  rw [hnew, hf.waiting, List.append_nil]
  exact hdead

/-- **Fresh start**: behind attempts that must fail, tasks come to what they come to on their
    own. -/
theorem Front.Idles.bestFrom_follow {f g : Front} (h : f.Idles offset rest table g)
    {tasks : List Task} (hf : f.Fresh (Task.placesOf tasks)) (htasks : Task.Follow table tasks)
    (marks : List Mark) :
    bestFrom offset (Pattern.follow ⟨offset, rest.isEmpty⟩ tasks marks g) none rest =
      bestFrom offset (Pattern.follow ⟨offset, rest.isEmpty⟩ tasks marks .empty) none rest := by
  have hagrees : Front.empty.Agrees offset rest table (Task.placesOf tasks) f := by
    refine ⟨hf.finished, ?_, ?_⟩
    · rw [hf.waiting]
      exact .nil
    · intro q hq _
      rw [hf.seen q hq]
      exact (PlaceSet.contains_empty q).symm
  have hmove := @follow_indifferent offset rest table _ _ htasks (List.Subset.refl _)
  exact (hmove.agrees marks _ _ (hagrees.of_idles (.refl _) h)).bestFrom_eq none

end

end TreeQuery.Pattern
