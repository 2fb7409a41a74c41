import Mathlib.Data.List.Nodup
import Mathlib.Data.List.Range
import Mathlib.Logic.Function.Basic
import TreeQuery.Proofs.Pattern.Front
import TreeQuery.Proofs.Pattern.Naming

/-! # Numbering — no two places of a plan have one number

    A front tells places apart by their numbers. A draft hands out each number
    once, and that is all it takes: a plan without repeated numbers whose loops
    always read something is orderly, and some table says what is ahead of each of
    its places.

    * **Order**: no place of such a plan is met again before a character is read.
    * **Tables**: whatever the plan, a table can be made for its places.
    * **Drafts**: the places of a draft are the numbers that it hands out.
-/

namespace TreeQuery.Pattern

namespace Plan

/-- The places of a plan, a choice and a junction in front of what is inside of them. -/
def places : Plan → List Nat
  | .empty | .start | .finish => []
  | .one place _ => [place]
  | .seq first second => first.places ++ second.places
  | .alt place preferred other => place :: (preferred.places ++ other.places)
  | .group _ body => body.places
  | .loop place _ _ body => place :: body.places

/-- Every round of every loop reads something. -/
def Productive : Plan → Prop
  | .empty | .one _ _ | .start | .finish => True
  | .seq first second => first.Productive ∧ second.Productive
  | .alt _ preferred other => preferred.Productive ∧ other.Productive
  | .group _ body => body.Productive
  | .loop _ _ _ body => body.nullable = false ∧ body.Productive

theorem mem_places_of_mem_firsts {p : Plan} {q : Nat} (hq : q ∈ p.firsts) : q ∈ p.places := by
  induction p with
  | empty | start | finish => cases hq
  | one place set => exact hq
  | seq first second ihf ihs =>
    unfold places
    rw [List.mem_append]
    rcases mem_firsts_seq.mp hq with hq | ⟨_, hq⟩
    · exact .inl (ihf hq)
    · exact .inr (ihs hq)
  | alt place preferred other ihp iho =>
    unfold places
    unfold firsts at hq
    rw [List.mem_cons, List.mem_append] at hq ⊢
    exact hq.imp_right fun hq => hq.imp ihp iho
  | group name body ih => exact ih hq
  | loop place greedy entered body ih =>
    unfold places
    rw [List.mem_cons]
    cases entered with
    | true => exact .inr (ih hq)
    | false => exact (List.mem_cons.mp hq).imp_right ih

/-! ### Order -/

/-- A plan without repeated numbers is orderly. Of its own places only those may be met right
    behind it that begin it, and these only if it must read something before. -/
theorem orderly_of_nodup {p : Plan} {next : List Nat} (hnodup : p.places.Nodup)
    (hproductive : p.Productive)
    (hnext : ∀ q ∈ next, q ∈ p.places → q ∈ p.firsts ∧ p.nullable = false) :
    p.Orderly next := by
  induction p generalizing next with
  | empty | one | start | finish => trivial
  | seq first second ihf ihs =>
    unfold places at hnodup hnext
    obtain ⟨hnf, hns, hdisjoint⟩ := List.nodup_append'.mp hnodup
    simp only [mem_firsts_seq, List.mem_append] at hnext
    -- what comes behind the whole and lies in one of the two is no place of the other
    constructor
    · refine ihf hnf hproductive.1 fun q hq hplace => ?_
      rcases List.mem_append.mp hq with hq | hq
      · exact absurd (mem_places_of_mem_firsts hq) (hdisjoint hplace)
      · by_cases hn : second.nullable = true
        · rw [if_pos hn] at hq
          obtain ⟨hfirst, hnullable⟩ := hnext q hq (.inl hplace)
          unfold nullable at hnullable
          rw [hn, Bool.and_true] at hnullable
          refine ⟨?_, hnullable⟩
          rcases hfirst with hfirst | ⟨_, hsecond⟩
          · exact hfirst
          · exact absurd (mem_places_of_mem_firsts hsecond) (hdisjoint hplace)
        · rw [if_neg hn] at hq
          cases hq
    · refine ihs hns hproductive.2 fun q hq hplace => ?_
      obtain ⟨hfirst, hnullable⟩ := hnext q hq (.inr hplace)
      rcases hfirst with hfirst | ⟨hn, hsecond⟩
      · exact absurd hplace (hdisjoint (mem_places_of_mem_firsts hfirst))
      · unfold nullable at hnullable
        rw [hn, Bool.true_and] at hnullable
        exact ⟨hsecond, hnullable⟩
  | alt place preferred other ihp iho =>
    unfold places at hnodup hnext
    unfold firsts nullable at hnext
    simp only [List.nodup_cons, List.mem_append, not_or, List.nodup_append'] at hnodup
    obtain ⟨⟨hplace, hplaceOther⟩, hnp, hno, hdisjoint⟩ := hnodup
    simp only [List.mem_cons, List.mem_append, Bool.or_eq_false_iff] at hnext
    -- the number of the choice is in neither alternative, and no number is in both
    refine ⟨fun h => hplace (mem_places_of_mem_firsts h),
      fun h => hplaceOther (mem_places_of_mem_firsts h), fun hn hmem => ?_,
      ihp hnp hproductive.1 fun q hq hmem => ?_, iho hno hproductive.2 fun q hq hmem => ?_⟩
    · have := (hnext place hmem (.inl rfl)).2
      simp [this] at hn
    · obtain ⟨hfirst, hnullable, _⟩ := hnext q hq (.inr (.inl hmem))
      refine ⟨?_, hnullable⟩
      rcases hfirst with rfl | hfirst | hfirst
      · exact absurd hmem hplace
      · exact hfirst
      · exact absurd (mem_places_of_mem_firsts hfirst) (hdisjoint hmem)
    · obtain ⟨hfirst, _, hnullable⟩ := hnext q hq (.inr (.inr hmem))
      refine ⟨?_, hnullable⟩
      rcases hfirst with rfl | hfirst | hfirst
      · exact absurd hmem hplaceOther
      · exact absurd hmem (hdisjoint (mem_places_of_mem_firsts hfirst))
      · exact hfirst
  | group name body ih => exact ih hnodup hproductive hnext
  | loop place greedy entered body ih =>
    obtain ⟨hadvance, hproductive⟩ := hproductive
    unfold places at hnodup hnext
    obtain ⟨hplace, hnb⟩ := List.nodup_cons.mp hnodup
    -- only an entered loop reads something before it can be left
    have hentered : ∀ q ∈ next, q ∈ place :: body.places → q ∈ body.firsts := by
      intro q hq hmem
      obtain ⟨hfirst, hnullable⟩ := hnext q hq hmem
      unfold nullable at hnullable
      unfold firsts at hfirst
      rw [Bool.or_eq_false_iff, Bool.not_eq_false'] at hnullable
      rwa [if_pos hnullable.1] at hfirst
    refine ⟨hadvance, fun h => hplace (mem_places_of_mem_firsts h), fun h => ?_,
      ih hnb hproductive fun q hq hmem => ⟨?_, hadvance⟩⟩
    · exact hplace (mem_places_of_mem_firsts (hentered place h List.mem_cons_self))
    · rcases List.mem_cons.mp hq with rfl | hq
      · exact absurd hmem hplace
      · rcases List.mem_append.mp hq with hq | hq
        · exact hq
        · exact hentered q hq (List.mem_cons_of_mem _ hmem)

/-! ### Tables -/

theorem Follows.congr {p : Plan} {after : List Task} {table other : Nat → List Task}
    (h : p.Follows table after) (hsame : ∀ q ∈ p.places, other q = table q) :
    p.Follows other after := by
  induction p generalizing after with
  | empty | start | finish => trivial
  | one place set => exact (hsame place (List.mem_singleton_self place)).trans h
  | seq first second ihf ihs =>
    exact ⟨ihf h.1 fun q hq => hsame q (List.mem_append_left _ hq),
      ihs h.2 fun q hq => hsame q (List.mem_append_right _ hq)⟩
  | alt place preferred other ihp iho =>
    obtain ⟨htable, hpreferred, hother⟩ := h
    refine ⟨(hsame place List.mem_cons_self).trans htable, ihp hpreferred fun q hq => ?_,
      iho hother fun q hq => ?_⟩
    · exact hsame q (List.mem_cons_of_mem _ (List.mem_append_left _ hq))
    · exact hsame q (List.mem_cons_of_mem _ (List.mem_append_right _ hq))
  | group name body ih => exact ih h hsame
  | loop place greedy entered body ih =>
    exact ⟨(hsame place List.mem_cons_self).trans h.1,
      ih h.2 fun q hq => hsame q (List.mem_cons_of_mem _ hq)⟩

/-- Any table can be changed at the places of a plan, and there only, into one that the plan
    follows. -/
theorem exists_follows {p : Plan} (hnodup : p.places.Nodup) (after : List Task)
    (base : Nat → List Task) :
    ∃ table, p.Follows table after ∧ ∀ q, q ∉ p.places → table q = base q := by
  induction p generalizing after base with
  | empty | start | finish => exact ⟨base, trivial, fun _ _ => rfl⟩
  | one place set =>
    refine ⟨Function.update base place (.read (.one place set) :: after),
      Function.update_self .., fun q hq => Function.update_of_ne ?_ ..⟩
    exact fun h => hq (h ▸ List.mem_singleton_self q)
  | seq first second ihf ihs =>
    unfold places at hnodup ⊢
    obtain ⟨hnf, hns, hdisjoint⟩ := List.nodup_append'.mp hnodup
    -- the table of the second part is changed at the places of the first, which it does not have
    obtain ⟨table, hsecond, hbase⟩ := ihs hns after base
    obtain ⟨table', hfirst, htable⟩ := ihf hnf (.read second :: after) table
    refine ⟨table', ⟨hfirst, hsecond.congr fun q hq => htable q fun h => hdisjoint h hq⟩,
      fun q hq => ?_⟩
    rw [List.mem_append, not_or] at hq
    exact (htable q hq.1).trans (hbase q hq.2)
  | alt place preferred other ihp iho =>
    unfold places at hnodup ⊢
    simp only [List.nodup_cons, List.mem_append, not_or, List.nodup_append'] at hnodup
    obtain ⟨⟨hplace, hplaceOther⟩, hnp, hno, hdisjoint⟩ := hnodup
    let here := Function.update base place (.read (.alt place preferred other) :: after)
    obtain ⟨table, hother, hhere⟩ := iho hno after here
    obtain ⟨table', hpreferred, htable⟩ := ihp hnp after table
    refine ⟨table', ⟨?_, hpreferred, hother.congr fun q hq => htable q fun h => hdisjoint h hq⟩,
      fun q hq => ?_⟩
    · rw [htable place hplace, hhere place hplaceOther]
      exact Function.update_self ..
    · simp only [List.mem_cons, List.mem_append, not_or] at hq
      rw [htable q hq.2.1, hhere q hq.2.2]
      exact Function.update_of_ne hq.1 ..
  | group name body ih => exact ih hnodup (.close name 0 :: after) base
  | loop place greedy entered body ih =>
    unfold places at hnodup ⊢
    obtain ⟨hplace, hnb⟩ := List.nodup_cons.mp hnodup
    let again := .read (.loop place greedy false body) :: after
    obtain ⟨table, hbody, hbase⟩ := ih hnb again (Function.update base place again)
    refine ⟨table, ⟨?_, hbody⟩, fun q hq => ?_⟩
    · rw [hbase place hplace]
      exact Function.update_self ..
    · rw [List.mem_cons, not_or] at hq
      rw [hbase q hq.2]
      exact Function.update_of_ne hq.1 ..

/-- A plan without repeated numbers whose loops always read something reads a text as the first of
    its readings says. -/
theorem best?_eq_of_nodup {p : Plan} (hnodup : p.places.Nodup) (hproductive : p.Productive)
    (offset : Nat) (rest : List Char) :
    p.best? offset rest = (p.readings ⟨offset, rest, []⟩).head?.map Cursor.reading := by
  obtain ⟨table, hfollows, _⟩ := exists_follows hnodup [] fun _ => []
  exact best?_eq hfollows (orderly_of_nodup hnodup hproductive (List.forall_mem_nil _))

end Plan

/-! ### Drafts -/

/-- A property of drafts that is kept by every way to put drafts together, as long as groups have
    allowed names. -/
structure Draft.Compositional (allowed : String → Prop) (P : Draft → Prop) : Prop where
  empty : P .empty
  one (set : CharSet) : P (.one set)
  start : P fun n => (.start, n)
  finish : P fun n => (.finish, n)
  seq {d e : Draft} : P d → P e → P (.seq d e)
  alt {d e : Draft} : P d → P e → P (.alt d e)
  group {name : String} {d : Draft} : allowed name → P d → P (.group name d)
  loop (greedy entered : Bool) {d : Draft} : P d → P (.loop greedy entered d)

namespace Draft.Compositional

variable {allowed : String → Prop} {P : Draft → Prop} (h : Compositional allowed P) {d : Draft}

include h

theorem optional (greedy : Bool) (hd : P d) : P (.optional greedy d) := by
  unfold Draft.optional
  cases greedy
  · exact h.alt h.empty hd
  · exact h.alt hd h.empty

theorem exactly (hd : P d) (n : Nat) : P (.exactly d n) := by
  induction n with
  | zero => exact h.empty
  | succ n ih =>
    cases n with
    | zero => exact hd
    | succ n => exact h.seq hd ih

theorem atMost (greedy : Bool) (hd : P d) (n : Nat) : P (.atMost greedy d n) := by
  induction n with
  | zero => exact h.empty
  | succ n ih =>
    cases n with
    | zero => exact h.optional greedy hd
    | succ n => exact h.optional greedy (h.seq hd ih)

theorem repeated (times : Times) (nullable : Bool) (hd : P d) :
    P (.repeated times nullable d) := by
  unfold Draft.repeated
  split
  · unfold Draft.anyTimes
    split
    · exact h.optional _ (h.loop _ true hd)
    · exact h.loop _ false hd
  · exact h.loop _ true hd
  · exact h.seq (h.exactly hd _) (h.loop _ true hd)
  · exact h.atMost _ hd _
  · split
    · exact h.exactly hd _
    · exact h.seq (h.exactly hd _) (h.atMost _ hd _)

/-- The draft of a pattern whose groups have allowed names has the property. -/
theorem draft {p : Pattern} (hp : p.Named allowed) : P p.draft := by
  induction p with
  | empty => exact h.empty
  | one set => exact h.one set
  | start => exact h.start
  | finish => exact h.finish
  | seq first second ihf ihs => exact h.seq (ihf hp.1) (ihs hp.2)
  | alt preferred other ihp iho => exact h.alt (ihp hp.1) (iho hp.2)
  | group name body ih =>
    cases name with
    | none => exact ih hp
    | some name => exact h.group hp.1 (ih hp.2)
  | repeated times body ih => exact h.repeated times body.canBeEmpty (ih hp)

/-- If all names are allowed, the drafts of all patterns have the property. -/
theorem draft_of_forall (hall : ∀ name, allowed name) (p : Pattern) : P p.draft :=
  h.draft (named_of_forall hall p)

end Draft.Compositional

/-- The places of a plan are the numbers that its draft hands out, one after another. -/
def Draft.Numbered (d : Draft) : Prop :=
  ∀ n, ∃ k, (d n).2 = n + k ∧ (d n).1.places = List.range' n k

theorem Draft.compositional_numbered : Draft.Compositional (fun _ => True) Draft.Numbered where
  empty _ := ⟨0, rfl, rfl⟩
  one _ _ := ⟨1, rfl, rfl⟩
  start _ := ⟨0, rfl, rfl⟩
  finish _ := ⟨0, rfl, rfl⟩
  seq {d e} hd he n := by
    obtain ⟨k, hk, hplaces⟩ := hd n
    obtain ⟨l, hl, hmore⟩ := he (n + k)
    refine ⟨k + l, ?_, ?_⟩
    · show (e (d n).2).2 = n + (k + l)
      rw [hk, hl, Nat.add_assoc]
    · show (d n).1.places ++ (e (d n).2).1.places = List.range' n (k + l)
      rw [hplaces, hk, hmore, List.range'_append_1]
  alt {d e} hd he n := by
    obtain ⟨k, hk, hplaces⟩ := hd (n + 1)
    obtain ⟨l, hl, hmore⟩ := he (n + 1 + k)
    refine ⟨k + l + 1, ?_, ?_⟩
    · show (e (d (n + 1)).2).2 = n + (k + l + 1)
      rw [hk, hl]
      omega
    · show n :: ((d (n + 1)).1.places ++ (e (d (n + 1)).2).1.places) = List.range' n (k + l + 1)
      rw [hplaces, hk, hmore, List.range'_append_1, List.range'_succ]
  group _ hd := hd
  loop greedy entered {d} hd n := by
    obtain ⟨k, hk, hplaces⟩ := hd (n + 1)
    refine ⟨k + 1, ?_, ?_⟩
    · show (d (n + 1)).2 = n + (k + 1)
      rw [hk]
      omega
    · show n :: (d (n + 1)).1.places = List.range' n (k + 1)
      rw [hplaces, List.range'_succ]

theorem numbered_draft (p : Pattern) : p.draft.Numbered :=
  Draft.compositional_numbered.draft_of_forall (fun _ => trivial) p

/-- No number is handed out twice. -/
theorem Draft.Numbered.nodup_places {d : Draft} (hd : d.Numbered) (n : Nat) :
    (d n).1.places.Nodup := by
  obtain ⟨k, _, hplaces⟩ := hd n
  rw [hplaces]
  exact List.nodup_range'

end TreeQuery.Pattern
