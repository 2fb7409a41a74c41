import TreeQuery.Pattern.Source
import TreeQuery.Proofs.Pattern.Leftmost
import TreeQuery.Proofs.Pattern.Tails

/-! # Anchored patterns — matching a text from start to end

    A text is matched from start to end by a written pattern if it is found when
    the pattern stands between the two anchors. This says no more and no less than
    that the pattern has a reading of the whole text.
-/

namespace TreeQuery.Pattern

/-- Whether a written pattern matches a text from start to end. -/
def MatchesWhole (source text : String) : Prop :=
  ∃ p, ofString ("^(?:" ++ source ++ ")$") = .ok p ∧ p.occurrences text.toList ≠ []

/-- Some patterns, one after another, between the anchors. -/
def anchored (ps : List Pattern) : Pattern := chain (.start :: (ps ++ [.finish]))

/-- Something occurs in a text iff a search from its start finds something. -/
theorem occurrences_ne_nil_iff (p : Pattern) (text : List Char) :
    p.occurrences text ≠ [] ↔ ∃ o, p.searchPlan.search? 0 text = some o := by
  have hrepeats : ∀ o : Occurrence, o.repeatsEnd none = false := by
    intro o
    unfold Occurrence.repeatsEnd
    rw [decide_eq_false_iff_not]
    rintro ⟨_, h⟩
    cases h
  unfold occurrences
  cases text with
  | nil =>
    rw [occurrencesFrom, if_neg (Nat.lt_irrefl 0)]
    cases p.searchPlan.search? 0 [] with
    | none => simp
    | some o => simp [Option.filter, hrepeats]
  | cons c cs =>
    rw [occurrencesFrom]
    simp only [if_neg (Nat.lt_irrefl 0)]
    cases p.searchPlan.search? 0 (c :: cs) with
    | none => simp
    | some o => simp [hrepeats]

section

variable {ps : List Pattern} (h : (anchored ps).Productive)

theorem readings_anchored (c : Cursor) :
    (anchored ps).readings c =
      if c.offset = 0 then ((chain ps).readings c).flatMap Reader.finish else [] := by
  have hreadings : (anchored ps).readings =
      .seq .start (.seq (chain ps).readings .finish) := by
    unfold anchored
    rw [readings_chain_cons, readings_chain_append]
    rfl
  rw [hreadings]
  show (Reader.start c).flatMap _ = _
  unfold Reader.start
  by_cases h0 : c.offset = 0
  · rw [if_pos h0, if_pos h0, List.flatMap_singleton]
    rfl
  · rw [if_neg h0, if_neg h0, List.flatMap_nil]

include h

/-- Behind the start of a text nothing anchored there is found. -/
theorem search?_anchored_of_pos {offset : Nat} (hoffset : 0 < offset) (cs : List Char) :
    (anchored ps).searchPlan.search? offset cs = none := by
  have hnone : ∀ offset cs, 0 < offset → (anchored ps).readings ⟨offset, cs, []⟩ = [] := by
    intro offset cs hoffset
    rw [readings_anchored, if_neg (Nat.ne_of_gt hoffset)]
  induction cs generalizing offset with
  | nil =>
    rw [search?_nil h, hnone offset [] hoffset]
    rfl
  | cons c cs ih =>
    rw [search?_cons h, hnone offset (c :: cs) hoffset, ih (Nat.add_pos_left hoffset _)]
    rfl

/-- An anchored pattern is found iff it has a reading of the whole text. -/
theorem occurrences_anchored_ne_nil_iff (text : List Char) :
    (anchored ps).occurrences text ≠ [] ↔ [] ∈ (chain ps).readings.tails text := by
  have hsearch : (anchored ps).searchPlan.search? 0 text =
      ((anchored ps).readings ⟨0, text, []⟩).head?.map (Cursor.occurrence 0) := by
    cases text with
    | nil => exact search?_nil h 0
    | cons c cs =>
      have hpos : 0 < 0 + c.utf8Size := Nat.add_pos_right 0 c.utf8Size_pos
      rw [search?_cons h, search?_anchored_of_pos h hpos, Option.or_none]
  have hreadings : ((anchored ps).readings ⟨0, text, []⟩).head? ≠ none ↔
      [] ∈ (chain ps).readings.tails text := by
    rw [Ne, List.head?_eq_none_iff, readings_anchored, if_pos rfl, List.flatMap_eq_nil_iff]
    unfold Reader.tails
    rw [List.mem_map]
    constructor
    · -- were text left by every reading, none of them would get past the end
      intro hsome
      by_contra hall
      refine hsome fun c hc => ?_
      unfold Reader.finish
      rw [if_neg]
      intro hend
      exact hall ⟨c, hc, List.isEmpty_iff.mp hend⟩
    · rintro ⟨c, hc, hend⟩ hnone
      have := hnone c hc
      unfold Reader.finish at this
      rw [hend] at this
      cases this
  rw [occurrences_ne_nil_iff, hsearch, ← hreadings]
  cases ((anchored ps).readings ⟨0, text, []⟩).head? with
  | none => simp
  | some c => simp

end

end TreeQuery.Pattern
