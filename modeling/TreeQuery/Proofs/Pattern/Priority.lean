import TreeQuery.Pattern.Occurrence
import TreeQuery.Proofs.Pattern.Indifference
import TreeQuery.Proofs.Pattern.Renumbering

/-! # Priority — one attempt or else the next

    All alternatives of a choice, and all starts of a search, are under way at
    once. What is reported is still what trying them one after the other reports,
    each from a fresh start: if something comes of the first, nothing behind it
    matters; if not, it leaves nothing behind that matters.

    * **Worse attempts**: a front that reports a reading reports it whatever worse
      attempts there are.
    * **Tasks on their own**: something comes of them iff they can be done.
    * **Choices and searches**: a choice reports what its first alternative reports
      that reports anything, and a search what the first start does.
-/

namespace TreeQuery.Pattern

/-! ### Worse attempts -/

theorem advance_extends (spot : Spot) (x : Char) (new old : List Attempt) :
    (advance spot x old).Extends (advance spot x (new ++ old)) := by
  induction new with
  | nil => exact .refl _
  | cons a new ih =>
    rw [List.cons_append]
    conv => arg 2; unfold advance
    split
    · exact ih.trans (follow_extending spot a.after a.marks _)
    · exact ih

/-- Worse attempts change nothing about a front that reports a reading. -/
theorem Front.Extends.bestFrom_eq_some {offset : Nat} {rest : List Char} {f g : Front}
    (h : f.Extends g) {r : Reading} (hr : bestFrom offset f none rest = some r)
    (known : Option Reading) : bestFrom offset g known rest = some r := by
  induction rest generalizing offset f g known with
  | nil =>
    have hfinished : f.finished = some r := by simpa [bestFrom] using hr
    rw [h.finished (by rw [hfinished]; rfl)]
    simp [bestFrom, hfinished]
  | cons x xs ih =>
    rw [bestFrom_cons] at hr ⊢
    cases hfinished : f.finished with
    | some best =>
      rw [h.finished (by rw [hfinished]; rfl), hfinished]
      rwa [hfinished] at hr
    | none =>
      obtain ⟨new, hnew⟩ := h.waiting
      rw [hfinished] at hr
      rw [hnew]
      exact ih (advance_extends _ x new f.waiting) hr _

/-! ### Tasks on their own -/

/-- The reading that tasks come to on their own. -/
def Task.best? (offset : Nat) (rest : List Char) (tasks : List Task) (marks : List Mark) :
    Option Reading :=
  bestFrom offset (follow ⟨offset, rest.isEmpty⟩ tasks marks .empty) none rest

/-- The front at a place, before anything has been done there. -/
def Front.at (place : Nat) : Front := ⟨PlaceSet.empty.insert place, [], none⟩

theorem Front.fresh_at {place : Nat} {places : List Nat} (h : place ∉ places) :
    (Front.at place).Fresh places := by
  refine ⟨rfl, rfl, ?_⟩
  intro q hq
  have hne : place ≠ q := fun heq => h (heq ▸ hq)
  simp [Front.at, hne]

theorem Front.visit_empty (place : Nat) (go : Front → Front) :
    Front.empty.visit place go = go (.at place) := by
  simp [Front.visit, Front.empty, Front.at]

section

variable {offset : Nat} {rest : List Char} {table : Nat → List Task}

/-- Something comes of tasks iff they can be done. -/
theorem Task.isSome_best?_iff {tasks : List Task} (htasks : Task.Follow table tasks)
    (marks : List Mark) :
    (Task.best? offset rest tasks marks).isSome = true ↔ Task.Live tasks offset rest := by
  constructor
  · intro hsome
    by_contra hdead
    -- tasks that must fail leave the empty front as it was, in all that matters
    have hmove := @follow_indifferent offset rest table _ _ htasks (List.Subset.refl _)
    have hsame : Front.empty.Agrees offset rest table (Task.placesOf tasks) .empty :=
      ⟨rfl, .nil, fun _ _ _ => rfl⟩
    have hagrees := hsame.of_idles (.refl _) (hmove.idles hdead marks .empty)
    unfold best? at hsome
    rw [hagrees.bestFrom_eq none, bestFrom_of_waiting_eq_nil rfl] at hsome
    cases hsome
  · rintro ⟨turns, hrun⟩
    obtain ⟨hcovers, hdone⟩ := @follow_covers offset rest _ _ htasks [] marks .empty
      Front.covers_empty
    rcases hdone turns hrun with hlive | ⟨place, hplace, _⟩
    · exact hlive.isSome_bestFrom hcovers.follow none
    · cases hplace

theorem Task.not_live_of_best?_eq_none {tasks : List Task} (htasks : Task.Follow table tasks)
    {marks : List Mark} (h : Task.best? offset rest tasks marks = none) :
    ¬ Task.Live tasks offset rest := by
  rw [← isSome_best?_iff htasks marks, h]
  exact Bool.false_ne_true

/-- Having been seen does not matter to tasks that stay away from the place. -/
theorem Task.bestFrom_follow_at {place : Nat} {tasks : List Task}
    (htasks : Task.Follow table tasks) (hplace : place ∉ Task.placesOf tasks)
    (marks : List Mark) :
    bestFrom offset (follow ⟨offset, rest.isEmpty⟩ tasks marks (.at place)) none rest =
      best? offset rest tasks marks :=
  (Front.Idles.refl _).bestFrom_follow (Front.fresh_at hplace) htasks marks

/-! ### Choices -/

/-- A choice comes to what its preferred alternative comes to, or else to what the other does. -/
theorem Task.best?_alt {place : Nat} {preferred other : Plan} {after : List Task}
    (htasks : Task.Follow table (.read (.alt place preferred other) :: after))
    (hplace : place ∉ Task.placesOf (.read preferred :: .read other :: after))
    (marks : List Mark) :
    Task.best? offset rest (.read (.alt place preferred other) :: after) marks =
      (Task.best? offset rest (.read preferred :: after) marks).or
        (Task.best? offset rest (.read other :: after) marks) := by
  obtain ⟨⟨_, hpreferred, hother⟩, hafter⟩ := htasks
  have hfirst : Task.Follow table (.read preferred :: after) := ⟨hpreferred, hafter⟩
  have hsecond : Task.Follow table (.read other :: after) := ⟨hother, hafter⟩
  simp only [placesOf, List.mem_append, not_or] at hplace
  have hplaceFirst : place ∉ placesOf (.read preferred :: after) := by simp [placesOf, hplace]
  have hplaceSecond : place ∉ placesOf (.read other :: after) := by simp [placesOf, hplace]
  have henter : follow ⟨offset, rest.isEmpty⟩ (.read (.alt place preferred other) :: after) marks
      .empty = follow ⟨offset, rest.isEmpty⟩ (.read other :: after) marks
        (follow ⟨offset, rest.isEmpty⟩ (.read preferred :: after) marks (.at place)) := by
    rw [follow, Plan.enter, Front.visit_empty]
    rfl
  conv => lhs; unfold best?
  rw [henter]
  cases hbest : best? offset rest (.read preferred :: after) marks with
  | some r =>
    rw [← bestFrom_follow_at hfirst hplaceFirst] at hbest
    rw [Option.some_or]
    exact (follow_extending _ _ marks _).bestFrom_eq_some hbest none
  | none =>
    have hdead := not_live_of_best?_eq_none hfirst hbest
    have hmove := @follow_indifferent offset rest table _ _ hfirst (List.Subset.refl _)
    rw [Option.none_or]
    exact (hmove.idles hdead marks (.at place)).bestFrom_follow (Front.fresh_at hplaceSecond)
      hsecond marks

/-! ### Searches -/

/-- Attempts that must fail leave nothing behind that matters. -/
theorem idles_advance {x : Char} {xs : List Char} {waiting : List Attempt}
    (hdead : ∀ a ∈ waiting, a.Dead offset (x :: xs) table) :
    Front.empty.Idles (offset + x.utf8Size) xs table
      (advance ⟨offset + x.utf8Size, xs.isEmpty⟩ x waiting) := by
  induction waiting with
  | nil => exact .refl _
  | cons a better ih =>
    have hbetter := ih fun b hb => hdead b (List.mem_cons_of_mem a hb)
    unfold advance
    split
    · next hx => exact hbetter.trans ((hdead a List.mem_cons_self).idles hx _)
    · exact hbetter

section

variable {place inside : Nat} {after : List Task}

/-- A search goes through what it looks for before it waits for a character to go on. -/
theorem follow_search (spot : Spot) (marks : List Mark) :
    follow spot (.read (.loop place false false (.one inside .any)) :: after) marks .empty =
      (follow spot after marks (.at place)).visit inside fun f =>
        f.wait ⟨.any, .read (.loop place false false (.one inside .any)) :: after, marks⟩ := by
  rw [follow, Plan.enter]
  unfold junction
  simp only [Bool.false_eq_true, if_false]
  rw [Front.visit_empty]
  rfl

/-- At the end of a text a search tries what it looks for there. -/
theorem Task.best?_search_nil
    (htasks : Task.Follow table (.read (.loop place false false (.one inside .any)) :: after))
    (hplace : place ∉ Task.placesOf after) (marks : List Mark) :
    Task.best? offset [] (.read (.loop place false false (.one inside .any)) :: after) marks =
      Task.best? offset [] after marks := by
  rw [← bestFrom_follow_at htasks.2 hplace]
  unfold best?
  rw [follow_search]
  unfold bestFrom Front.visit
  split <;> rfl

/-- If what a search looks for must fail here, the search goes on behind the next character. -/
theorem Front.Idles.bestFrom_search {f : Front} {x : Char} {xs : List Char}
    (h : (Front.at place).Idles offset (x :: xs) table f) (hne : place ≠ inside)
    {again : List Task} (hagain : Task.Follow table again)
    (htable : table inside = .read (.one inside .any) :: again.map Task.shape)
    (hlive : Task.Live again (offset + x.utf8Size) xs) (marks : List Mark) :
    bestFrom offset (f.visit inside fun f => f.wait ⟨.any, again, marks⟩) none (x :: xs) =
      Task.best? (offset + x.utf8Size) xs again marks := by
  have hany : CharSet.any.contains x = true := rfl
  -- the place that waits has not been seen, as it can be gone on from
  have hinside : Task.Live (table inside) offset (x :: xs) := by
    obtain ⟨turns, hrun⟩ := hlive
    exact ⟨turns, (@Task.succeeds_iff _ _ _ (.read (.one inside .any) :: again) _ htable).mpr
      (.one hany hrun)⟩
  have hunseen : f.seen.contains inside = false := by
    rw [h.seen inside hinside]
    simp [Front.at, hne]
  have hopen : f.finished = none := h.finished
  have hdead := h.dead (Front.fresh_at (@List.not_mem_nil _ place))
  rw [bestFrom_cons]
  unfold Front.visit
  rw [hopen, hunseen]
  show bestFrom _ (advance _ x (⟨.any, again, marks⟩ :: f.waiting)) none xs = _
  unfold advance
  rw [if_pos hany]
  exact (idles_advance hdead).bestFrom_follow (Front.fresh_empty _) hagain marks

/-- A search tries what it looks for where it is, or else goes on behind the next character. -/
theorem Task.best?_search_cons
    (htasks : Task.Follow table (.read (.loop place false false (.one inside .any)) :: after))
    (hplace : place ∉ Task.placesOf after) (hne : place ≠ inside) (marks : List Mark) (x : Char)
    (xs : List Char) :
    Task.best? offset (x :: xs) (.read (.loop place false false (.one inside .any)) :: after)
        marks =
      (Task.best? offset (x :: xs) after marks).or
        (Task.best? (offset + x.utf8Size) xs
          (.read (.loop place false false (.one inside .any)) :: after) marks) := by
  cases hbest : best? offset (x :: xs) after marks with
  | some r =>
    rw [← bestFrom_follow_at htasks.2 hplace] at hbest
    have hext := Front.Extends.visit (follow ⟨offset, false⟩ after marks (.at place)) inside
      fun g hg => .wait hg
        ⟨.any, .read (.loop place false false (.one inside .any)) :: after, marks⟩
    conv => lhs; unfold best?
    rw [follow_search, Option.some_or]
    exact hext.bestFrom_eq_some hbest none
  | none =>
    have hdead := not_live_of_best?_eq_none htasks.2 hbest
    rw [Option.none_or]
    by_cases hnext : Task.Live (.read (.loop place false false (.one inside .any)) :: after)
        (offset + x.utf8Size) xs
    · have hmove := @follow_indifferent offset (x :: xs) table _ _ htasks.2 (List.Subset.refl _)
      conv => lhs; unfold best?
      rw [follow_search]
      exact (hmove.idles hdead marks (.at place)).bestFrom_search hne htasks htasks.1.2 hnext marks
    · -- nothing comes of what is behind the next character, and nothing of the whole
      have hwhole : ¬ Task.Live (.read (.loop place false false (.one inside .any)) :: after)
          offset (x :: xs) := by
        rintro ⟨turns, hrun⟩
        cases hrun with
        | round hrun =>
          cases hrun with
          | one _ hrun => exact hnext ⟨_, hrun⟩
        | leave hrun => exact hdead ⟨_, hrun⟩
      rw [← isSome_best?_iff htasks marks, Option.not_isSome_iff_eq_none] at hnext hwhole
      rw [hnext, hwhole]

end

end

end TreeQuery.Pattern
