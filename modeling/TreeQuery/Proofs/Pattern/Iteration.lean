import TreeQuery.Proofs.Pattern.Stepping

/-! # Iteration — all occurrences, one search after another

    The occurrences of a pattern are what repeated searching comes to: a search is
    made, what it finds is reported, and the next search begins where that has
    ended. If a search finds nothing but the empty text where the last occurrence
    has ended, that is not reported, and the next search begins one character
    further on.

    * **Searches** are a derivation of their own, which counts them and knows
      nothing of how a text is gone through.
    * **The end**: every search takes something away from what is left, so there
      are at most two for each character and two more.
    * **What is reported**, one lemma for each way a search can go.
-/

namespace TreeQuery.Pattern

/-! ### Searches -/

/-- Searching the rest of a text from an offset on, given where the last occurrence has ended: the
    occurrences that are reported until a search ends it, and the number of searches made. -/
inductive Plan.Iterates (search : Plan) :
    Nat → Option Nat → List Char → List Occurrence → Nat → Prop where
  /-- Nothing is found. -/
  | nothing {offset : Nat} {last : Option Nat} {rest : List Char} :
      search.search? offset rest = none → Iterates search offset last rest [] 1
  /-- At the end of the text only the end of the last occurrence is found again. -/
  | finish {offset : Nat} {last : Option Nat} {o : Occurrence} :
      search.search? offset [] = some o → o.repeatsEnd last = true →
      Iterates search offset last [] [] 1
  /-- The end of the last occurrence is found again, and a character is passed over. -/
  | again {offset steps : Nat} {last : Option Nat} {x : Char} {xs : List Char} {o : Occurrence}
      {os : List Occurrence} :
      search.search? offset (x :: xs) = some o → o.repeatsEnd last = true →
      Iterates search (offset + x.utf8Size) last xs os steps →
      Iterates search offset last (x :: xs) os (steps + 1)
  /-- An occurrence is found and reported, and what has been passed over and read is left. -/
  | report {offset steps : Nat} {last : Option Nat} {passed after : List Char} {o : Occurrence}
      {os : List Occurrence} :
      search.search? offset (passed ++ after) = some o → o.repeatsEnd last = false →
      o.reading.offset = offset + Text.byteLength passed →
      Iterates search o.reading.offset (some o.reading.offset) after os steps →
      Iterates search offset last (passed ++ after) (o :: os) (steps + 1)

/-! ### The end -/

/-- How many searches may still be made: two for each character, and one more where the last
    occurrence has not just ended, as nothing may be found there once. -/
def searchesLeft (offset : Nat) (last : Option Nat) (rest : List Char) : Nat :=
  2 * rest.length + if last = some offset then 1 else 2

theorem one_le_searchesLeft (offset : Nat) (last : Option Nat) (rest : List Char) :
    1 ≤ searchesLeft offset last rest := by
  unfold searchesLeft
  split <;> omega

/-- Passing over a character takes a search away. -/
theorem searchesLeft_pass_lt (offset next : Nat) (last : Option Nat) (x : Char)
    (xs : List Char) : searchesLeft next last xs < searchesLeft offset last (x :: xs) := by
  unfold searchesLeft
  rw [List.length_cons]
  split <;> split <;> omega

/-- Reporting an occurrence takes a search away: it has read something, or else it ends where the
    last one has not ended. -/
theorem searchesLeft_report_lt {offset : Nat} {last : Option Nat} {passed : List Char}
    (h : passed = [] → last ≠ some offset) (stop : Nat) (after : List Char) :
    searchesLeft stop (some stop) after < searchesLeft offset last (passed ++ after) := by
  unfold searchesLeft
  rw [if_pos rfl, List.length_append]
  cases passed with
  | nil =>
    rw [if_neg (h rfl), List.length_nil]
    omega
  | cons x xs =>
    rw [List.length_cons]
    split <;> omega

/-! ### What is reported -/

section

variable {p : Pattern} {offset : Nat} {last : Option Nat} {rest : List Char} {o : Occurrence}

theorem occurrencesFrom_of_search?_eq_none (h : p.searchPlan.search? offset rest = none) :
    occurrencesFrom p.searchPlan offset offset last rest = [] := by
  cases rest <;> simp [occurrencesFrom, h]

theorem occurrencesFrom_of_repeatsEnd_at_end (h : p.searchPlan.search? offset [] = some o)
    (hrepeats : o.repeatsEnd last = true) :
    occurrencesFrom p.searchPlan offset offset last [] = [] := by
  simp [occurrencesFrom, h, hrepeats]

theorem occurrencesFrom_of_repeatsEnd {x : Char} {xs : List Char}
    (h : p.searchPlan.search? offset (x :: xs) = some o) (hrepeats : o.repeatsEnd last = true) :
    occurrencesFrom p.searchPlan offset offset last (x :: xs) =
      occurrencesFrom p.searchPlan (offset + x.utf8Size) (offset + x.utf8Size) last xs := by
  simp [occurrencesFrom, h, hrepeats]

/-- A new occurrence is the first that is reported, and the others are found behind it. If it
    leaves all of the text, then the last one has not ended here. -/
theorem exists_occurrencesFrom_eq_cons (h : p.searchPlan.search? offset rest = some o)
    (hnew : o.repeatsEnd last = false) :
    ∃ passed after, rest = passed ++ after ∧
      o.reading.offset = offset + Text.byteLength passed ∧
      (passed = [] → last ≠ some offset) ∧
      occurrencesFrom p.searchPlan offset offset last rest =
        o :: occurrencesFrom p.searchPlan o.reading.offset o.reading.offset
          (some o.reading.offset) after := by
  obtain ⟨skipped, read, after, htext, hspans⟩ := exists_spans_of_search? h
  have hstop : o.reading.offset = offset + Text.byteLength (skipped ++ read) := by
    rw [hspans.stop, Text.byteLength_append, Nat.add_assoc]
  rw [← List.append_assoc] at htext
  refine ⟨skipped ++ read, after, htext, hstop, ?_, ?_⟩
  · intro hnil hlast
    obtain ⟨rfl, rfl⟩ := List.append_eq_nil_iff.mp hnil
    have hrepeats : o.repeatsEnd last = true := by
      rw [Occurrence.repeatsEnd_iff, hspans.stop, hspans.start]
      exact ⟨rfl, hlast⟩
    rw [hrepeats] at hnew
    cases hnew
  · rw [occurrencesFrom_behind h hnew, htext, hstop, occurrencesFrom_skip]

end

/-- **Iteration**: searching a text again and again comes to an end, and reports its occurrences. -/
theorem exists_iterates (p : Pattern) (offset : Nat) (last : Option Nat) (rest : List Char) :
    ∃ steps ≤ searchesLeft offset last rest, p.searchPlan.Iterates offset last rest
      (occurrencesFrom p.searchPlan offset offset last rest) steps := by
  -- by induction on the searches that may still be made
  induction hn : searchesLeft offset last rest using Nat.strongRecOn
    generalizing offset last rest with
  | ind n ih =>
    subst hn
    have hone := one_le_searchesLeft offset last rest
    cases hsearch : p.searchPlan.search? offset rest with
    | none =>
      rw [occurrencesFrom_of_search?_eq_none hsearch]
      exact ⟨1, hone, .nothing hsearch⟩
    | some o =>
      by_cases hrepeats : o.repeatsEnd last = true
      · cases rest with
        | nil =>
          rw [occurrencesFrom_of_repeatsEnd_at_end hsearch hrepeats]
          exact ⟨1, hone, .finish hsearch hrepeats⟩
        | cons x xs =>
          have hlt := searchesLeft_pass_lt offset (offset + x.utf8Size) last x xs
          obtain ⟨steps, hsteps, hiterates⟩ := ih _ hlt _ _ _ rfl
          rw [occurrencesFrom_of_repeatsEnd hsearch hrepeats]
          exact ⟨steps + 1, by omega, .again hsearch hrepeats hiterates⟩
      · have hnew : o.repeatsEnd last = false := Bool.eq_false_iff.mpr hrepeats
        obtain ⟨passed, after, rfl, hstop, hfresh, hreport⟩ :=
          exists_occurrencesFrom_eq_cons hsearch hnew
        have hlt := searchesLeft_report_lt hfresh o.reading.offset after
        obtain ⟨steps, hsteps, hiterates⟩ := ih _ hlt _ _ _ rfl
        rw [hreport]
        exact ⟨steps + 1, by omega, .report hsearch hnew hstop hiterates⟩

end TreeQuery.Pattern
