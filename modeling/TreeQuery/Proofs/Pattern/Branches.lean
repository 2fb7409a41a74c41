import TreeQuery.Proofs.Pattern.Priority
import TreeQuery.Proofs.Pattern.Runs

/-! # Branches — what a pattern prefers at one place of a text

    The reading that a plan prefers obeys plain laws, for all patterns, and those
    whose loops read nothing among them:

    * **Groups** remember what their body has read, and nothing else does.
    * **Choices** prefer what their first alternative reads that reads anything.
    * **Searches** prefer what is read here to what is read further on.
-/

namespace TreeQuery.Pattern

section

variable (offset : Nat) (rest : List Char)

/-! ### A pattern inside of another one -/

theorem follow_closing_tasks (table : Nat → List Task) (groups : List (String × Nat)) :
    Task.Follow table (Task.closing groups) := by
  induction groups with
  | nil => trivial
  | cons g groups ih => exact ih

/-- Some table says what is ahead of the places of a plan. -/
theorem exists_follow {plan : Plan} (hnodup : plan.places.Nodup)
    (groups : List (String × Nat)) :
    ∃ table, Task.Follow table (.read plan :: Task.closing groups) := by
  obtain ⟨table, hfollows, _⟩ := Plan.exists_follows hnodup
    ((Task.closing groups).map Task.shape) fun _ => []
  exact ⟨table, hfollows, follow_closing_tasks table groups⟩

/-- Wherever its draft starts, and whatever groups are around it, a pattern is read as it is on
    its own. -/
theorem best?_draft (p : Pattern) (n : Nat) (groups : List (String × Nat)) :
    Task.best? offset rest (.read (p.draft n).1 :: Task.closing groups) [] =
      (p.plan.best? offset rest).map (Reading.within groups) := by
  have hmove := @mirrors_follow n groups ⟨offset, rest.isEmpty⟩ [.read p.plan] [] .empty
  rw [Front.within_empty] at hmove
  rw [draft_eq_shift]
  unfold Task.best?
  show bestFrom offset (follow _ (Task.within n groups [.read p.plan]) [] .empty) none rest = _
  rw [hmove]
  exact bestFrom_within offset _ none rest

theorem best?_draft_alone (p : Pattern) (n : Nat) :
    Task.best? offset rest [.read (p.draft n).1] [] = p.plan.best? offset rest := by
  have h := best?_draft offset rest p n []
  have hid : Reading.within [] = id := rfl
  rwa [hid, Option.map_id] at h

/-! ### Groups and choices -/

/-- A named group reads what its body reads, and remembers it. -/
theorem best?_group (name : String) (p : Pattern) :
    (group (some name) p).plan.best? offset rest =
      (p.plan.best? offset rest).map fun r => r.closed name offset :=
  best?_draft offset rest p 0 [(name, offset)]

theorem Draft.compositional_nameless :
    Draft.Compositional (fun _ => False) fun d => ∀ n, (d n).1.Nameless where
  empty _ := trivial
  one _ _ := trivial
  start _ := trivial
  finish _ := trivial
  seq hd he n := ⟨hd n, he _⟩
  alt hd he n := ⟨hd (n + 1), he _⟩
  group hname := hname.elim
  loop _ _ _ hd n := hd (n + 1)

/-- A pattern without named groups marks nothing. -/
theorem marks_eq_nil_of_best? {p : Pattern} (hp : p.Named fun _ => False) {r : Reading}
    (h : p.plan.best? offset rest = some r) : r.marks = [] := by
  obtain ⟨c, hc, rfl⟩ := Plan.exists_admits_of_best? h
  exact hc.marks_eq (Draft.compositional_nameless.draft hp 0)

/-- A choice prefers what its first alternative reads. -/
theorem best?_alt (p q : Pattern) :
    (alt p q).plan.best? offset rest =
      (p.plan.best? offset rest).or (q.plan.best? offset rest) := by
  have hnodup := (numbered_draft (alt p q)).nodup_places 0
  obtain ⟨table, htasks⟩ := exists_follow hnodup []
  have hplace : (0 : Nat) ∉
      Task.placesOf [.read (p.draft 1).1, .read (q.draft (p.draft 1).2).1] := by
    have hcons := (List.nodup_cons.mp hnodup).1
    simpa [Task.placesOf] using hcons
  have halt := @Task.best?_alt offset rest table 0 (p.draft 1).1 (q.draft (p.draft 1).2).1 []
    htasks hplace []
  rw [best?_draft_alone, best?_draft_alone] at halt
  exact halt

/-- Of several patterns the first is preferred that reads anything. -/
theorem best?_firstOf {ps : List Pattern} (hps : ps ≠ []) :
    (firstOf ps).plan.best? offset rest = ps.findSome? fun p => p.plan.best? offset rest := by
  induction ps with
  | nil => exact absurd rfl hps
  | cons p ps ih =>
    cases ps with
    | nil =>
      -- a single pattern is no choice
      rw [List.findSome?_cons]
      show p.plan.best? offset rest = _
      cases p.plan.best? offset rest <;> rfl
    | cons q ps =>
      have hrest := ih (List.cons_ne_nil q ps)
      show (alt p (firstOf (q :: ps))).plan.best? offset rest = _
      rw [best?_alt, hrest, List.findSome?_cons (a := p)]
      cases p.plan.best? offset rest <;> rfl

/-! ### Searches -/

/-- What a search reports for a reading that starts at an offset. -/
def Reading.occurrence (r : Reading) (start : Nat) : Occurrence := ⟨start, r.closed whole start⟩

@[simp] theorem Reading.mark?_closed (r : Reading) (name : String) (began : Nat) :
    (r.closed name began).mark? name = some ⟨name, began, r.offset⟩ :=
  List.find?_cons_of_pos (beq_self_eq_true name)

/-- What is read in the group that a search marks is reported with its start. -/
theorem bind_mark?_within (r : Reading) :
    (some (r.within [(whole, offset)])).bind (fun r =>
      (r.mark? whole).map fun m => (⟨m.start, r⟩ : Occurrence)) = some (r.occurrence offset) := by
  have hwithin : r.within [(whole, offset)] = r.closed whole offset := rfl
  rw [hwithin, Option.bind_some, Reading.mark?_closed]
  rfl

variable (p : Pattern)

/-- The tasks of a search: passing over characters, and the pattern in the group that it marks. -/
theorem exists_follow_search :
    ∃ table, Task.Follow table [.read (.loop 0 false false (.one 1 .any)),
      .read (.group whole (p.draft 2).1)] := by
  have hnumbered : (searchDraft p).Numbered :=
    Draft.compositional_numbered.seq
      (Draft.compositional_numbered.loop false false (Draft.compositional_numbered.one .any))
      (Draft.compositional_numbered.group trivial (numbered_draft p))
  obtain ⟨table, hfollows, _⟩ := exists_follow (hnumbered.nodup_places 0) []
  exact ⟨table, hfollows.1, hfollows.2, trivial⟩

theorem not_mem_placesOf_search :
    (0 : Nat) ∉ Task.placesOf [.read (.group whole (p.draft 2).1)] := by
  obtain ⟨k, _, hplaces⟩ := numbered_draft p 2
  have hgroup : Task.placesOf [.read (.group whole (p.draft 2).1)] = (p.draft 2).1.places :=
    List.append_nil _
  rw [hgroup, hplaces, List.mem_range'_1]
  omega

/-- What a search looks for is the pattern in the group that it marks. -/
theorem best?_group_whole :
    Task.best? offset rest [.read (.group whole (p.draft 2).1)] [] =
      (p.plan.best? offset rest).map (Reading.within [(whole, offset)]) :=
  best?_draft offset rest p 2 [(whole, offset)]

/-- At the end of a text a search finds what the pattern reads there. -/
theorem search?_at_end :
    p.searchPlan.search? offset [] =
      (p.plan.best? offset []).map fun r => r.occurrence offset := by
  obtain ⟨table, htasks⟩ := exists_follow_search p
  have hbest := @Task.best?_search_nil offset table 0 1 _ htasks (not_mem_placesOf_search p) []
  have hplan : p.searchPlan.best? offset [] = _ := hbest.trans (best?_group_whole offset [] p)
  unfold Plan.search?
  rw [hplan]
  cases p.plan.best? offset [] with
  | none => rfl
  | some r => exact bind_mark?_within offset r

/-- A search finds what the pattern reads here, or else what it finds behind the next character. -/
theorem search?_here_or_later (x : Char) (xs : List Char) :
    p.searchPlan.search? offset (x :: xs) =
      ((p.plan.best? offset (x :: xs)).map fun r => r.occurrence offset).or
        (p.searchPlan.search? (offset + x.utf8Size) xs) := by
  obtain ⟨table, htasks⟩ := exists_follow_search p
  have hbest := @Task.best?_search_cons offset table 0 1 _ htasks (not_mem_placesOf_search p)
    Nat.zero_ne_one [] x xs
  rw [best?_group_whole] at hbest
  have hplan : p.searchPlan.best? offset (x :: xs) =
      ((p.plan.best? offset (x :: xs)).map (Reading.within [(whole, offset)])).or
        (p.searchPlan.best? (offset + x.utf8Size) xs) := hbest
  unfold Plan.search?
  rw [hplan]
  cases p.plan.best? offset (x :: xs) with
  | none => rfl
  | some r => exact bind_mark?_within offset r

end

end TreeQuery.Pattern
