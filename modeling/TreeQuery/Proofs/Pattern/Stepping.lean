import TreeQuery.Proofs.Pattern.Branches
import TreeQuery.Proofs.Pattern.Extent

/-! # Stepping — all searches of a text, one offset at a time

    A search reads the text once to find where the pattern is read next, and the
    next search goes on from there. The same occurrences are found by looking at
    one offset after another: if the pattern is read there, that is an occurrence,
    unless it reads nothing just where the last one has ended; if not, one
    character is passed over.

    * **Steps** at one offset, for all patterns.
    * **Productive patterns** that read something wherever they are found: the next
      step is behind the first of their readings.
-/

namespace TreeQuery.Pattern

variable {p : Pattern} {offset : Nat}

/-- What a search finds lies in the rest of the text. -/
theorem within_of_search? {rest : List Char} {o : Occurrence}
    (h : p.searchPlan.search? offset rest = some o) :
    offset ≤ o.start ∧ o.start ≤ o.reading.offset ∧
      o.reading.offset ≤ offset + Text.byteLength rest := by
  obtain ⟨skipped, read, after, rfl, hspans⟩ := exists_spans_of_search? h
  have hstart := hspans.start
  have hstop := hspans.stop
  simp only [Text.byteLength_append]
  omega

/-- What a search finds is what the pattern prefers to read somewhere in the text. -/
theorem exists_best?_of_search? {rest : List Char} {o : Occurrence}
    (h : p.searchPlan.search? offset rest = some o) :
    ∃ start after r, p.plan.best? start after = some r ∧ o = r.occurrence start := by
  induction rest generalizing offset with
  | nil =>
    rw [search?_at_end, Option.map_eq_some_iff] at h
    obtain ⟨r, hr, rfl⟩ := h
    exact ⟨offset, [], r, hr, rfl⟩
  | cons x xs ih =>
    rw [search?_here_or_later, Option.or_eq_some_iff] at h
    rcases h with hhere | ⟨_, hlater⟩
    · obtain ⟨r, hr, rfl⟩ := Option.map_eq_some_iff.mp hhere
      exact ⟨offset, x :: xs, r, hr, rfl⟩
    · exact ih hlater

/-- Every occurrence is what the pattern prefers to read somewhere in the text. -/
theorem exists_best?_of_mem_occurrencesFrom {rest : List Char} {goOn : Nat} {last : Option Nat}
    {o : Occurrence} (h : o ∈ occurrencesFrom p.searchPlan offset goOn last rest) :
    ∃ start after r, p.plan.best? start after = some r ∧ o = r.occurrence start := by
  induction rest generalizing offset goOn last with
  | nil =>
    unfold occurrencesFrom at h
    split at h
    · cases h
    · rw [Option.mem_toList, Option.filter_eq_some_iff] at h
      exact exists_best?_of_search? h.1
  | cons x xs ih =>
    unfold occurrencesFrom at h
    simp only at h
    split at h
    · exact ih h
    · split at h
      · cases h
      · next found hfound =>
        split at h
        · exact ih h
        · rcases List.mem_cons.mp h with rfl | hbehind
          · exact exists_best?_of_search? hfound
          · exact ih hbehind

theorem Occurrence.repeatsEnd_iff (o : Occurrence) (last : Option Nat) :
    o.repeatsEnd last = true ↔ o.reading.offset = o.start ∧ last = some o.start := by
  unfold repeatsEnd
  exact decide_eq_true_iff

/-- At the end of the text the pattern is looked for there. -/
theorem occurrencesFrom_at_end (last : Option Nat) :
    occurrencesFrom p.searchPlan offset offset last [] =
      (((p.plan.best? offset []).map fun r => r.occurrence offset).filter
        fun o => !o.repeatsEnd last).toList := by
  unfold occurrencesFrom
  rw [if_neg (Nat.lt_irrefl offset), search?_at_end]

/-- An occurrence is what the pattern reads here. -/
theorem occurrencesFrom_of_eq_some {x : Char} {xs : List Char} {r : Reading}
    (h : p.plan.best? offset (x :: xs) = some r) (last : Option Nat) :
    occurrencesFrom p.searchPlan offset offset last (x :: xs) =
      if (r.occurrence offset).repeatsEnd last then
        occurrencesFrom p.searchPlan (offset + x.utf8Size) (offset + x.utf8Size) last xs
      else
        r.occurrence offset ::
          occurrencesFrom p.searchPlan (offset + x.utf8Size) r.offset (some r.offset) xs := by
  have hsearch : p.searchPlan.search? offset (x :: xs) = some (r.occurrence offset) := by
    rw [search?_here_or_later, h]
    rfl
  rw [occurrencesFrom]
  simp only [if_neg (Nat.lt_irrefl offset), hsearch]
  rfl

/-- Behind an occurrence that was found from here on, the text is searched as if the occurrence had
    been found further on. If it reads nothing, it is found once more and passed over. -/
theorem occurrencesFrom_behind {rest : List Char} {o : Occurrence}
    (h : p.searchPlan.search? offset rest = some o) {last : Option Nat}
    (hnew : o.repeatsEnd last = false) :
    occurrencesFrom p.searchPlan offset offset last rest =
      o :: occurrencesFrom p.searchPlan offset o.reading.offset (some o.reading.offset) rest := by
  obtain ⟨hstart, hread, hend⟩ := within_of_search? h
  -- what has been read ends further on, or else here, where the next search finds it again
  have hagain : ¬ offset < o.reading.offset → o.repeatsEnd (some o.reading.offset) = true := by
    intro hlt
    rw [Occurrence.repeatsEnd_iff]
    have heq : o.reading.offset = o.start := by omega
    exact ⟨heq, congrArg some heq⟩
  cases rest with
  | nil =>
    have hhere : ¬ offset < o.reading.offset := by
      rw [Text.byteLength_nil] at hend
      omega
    have hrepeats := hagain hhere
    simp [occurrencesFrom, h, hhere, Option.filter, hnew, hrepeats]
  | cons x xs =>
    conv => lhs; rw [occurrencesFrom]
    conv => rhs; rw [occurrencesFrom]
    simp only [if_neg (Nat.lt_irrefl offset), h, hnew, Bool.false_eq_true, if_false]
    by_cases hlt : offset < o.reading.offset
    · rw [if_pos hlt]
    · have hle : o.reading.offset ≤ offset + x.utf8Size := by omega
      rw [if_neg hlt, hagain hlt, if_pos rfl, occurrencesFrom_of_le _ hle]

/-- Where the pattern has no reading, one character is passed over. -/
theorem occurrencesFrom_of_eq_none {x : Char} {xs : List Char}
    (h : p.plan.best? offset (x :: xs) = none) (last : Option Nat) :
    occurrencesFrom p.searchPlan offset offset last (x :: xs) =
      occurrencesFrom p.searchPlan (offset + x.utf8Size) (offset + x.utf8Size) last xs := by
  have hsearch : p.searchPlan.search? offset (x :: xs) =
      p.searchPlan.search? (offset + x.utf8Size) xs := by
    rw [search?_here_or_later, h]
    rfl
  rw [occurrencesFrom]
  simp only [if_neg (Nat.lt_irrefl offset), hsearch]
  cases hfound : p.searchPlan.search? (offset + x.utf8Size) xs with
  | none =>
    cases xs with
    | nil => simp [occurrencesFrom, hfound]
    | cons y ys => simp [occurrencesFrom, hfound]
  | some o =>
    by_cases hrepeats : o.repeatsEnd last = true
    · simp only [hrepeats, if_true]
    · simp only [hrepeats]
      exact (occurrencesFrom_behind hfound (by simpa using hrepeats)).symm

/-! ### Productive patterns -/

section

variable (h : p.Productive)

include h

/-- A productive pattern prefers the first of its readings. -/
theorem best?_of_productive (offset : Nat) (rest : List Char) :
    p.plan.best? offset rest = (p.readings ⟨offset, rest, []⟩).head?.map Cursor.reading :=
  (realizes_draft h).best?_eq 0 offset rest

/-- Where the pattern has no reading, one character is passed over. -/
theorem occurrencesFrom_of_none {x : Char} {xs : List Char} (last : Option Nat)
    (hnone : (p.readings ⟨offset, x :: xs, []⟩).head? = none) :
    occurrencesFrom p.searchPlan offset offset last (x :: xs) =
      occurrencesFrom p.searchPlan (offset + x.utf8Size) (offset + x.utf8Size) last xs := by
  apply occurrencesFrom_of_eq_none
  rw [best?_of_productive h, hnone, Option.map_none]

variable (hp : p.canBeEmpty = false)

include hp

theorem occurrencesFrom_nil (last : Option Nat) :
    occurrencesFrom p.searchPlan offset offset last [] = [] := by
  have hnone : p.readings ⟨offset, [], []⟩ = [] :=
    (advancing_readings h hp).eq_nil (Nat.le_refl 0)
  rw [occurrencesFrom_at_end, best?_of_productive h, hnone]
  rfl

/-- Where the pattern has a reading, the preferred one is an occurrence, and the search goes on
    behind it. -/
theorem occurrencesFrom_of_some {rest : List Char} {m : Cursor} (last : Option Nat)
    (hm : (p.readings ⟨offset, rest, []⟩).head? = some m) :
    occurrencesFrom p.searchPlan offset offset last rest =
      m.occurrence offset ::
        occurrencesFrom p.searchPlan m.offset m.offset (some m.offset) m.rest := by
  have hmem := List.mem_of_head? hm
  obtain ⟨read, hread⟩ := steady_readings h _ m hmem
  have hlt : offset < m.offset := hread.offset_lt (advancing_readings h hp _ m hmem)
  have hrest : rest = read ++ m.rest := hread.rest
  have hoffset : m.offset = offset + Text.byteLength read := hread.offset
  cases read with
  | nil =>
    rw [Text.byteLength_nil] at hoffset
    omega
  | cons x xs =>
    rw [List.cons_append] at hrest
    subst hrest
    have hbest := best?_of_productive h offset (x :: (xs ++ m.rest))
    rw [hm, Option.map_some] at hbest
    have hnew : (m.reading.occurrence offset).repeatsEnd last = false := by
      apply Bool.eq_false_iff.mpr
      intro hrepeats
      have hstop : m.offset = offset := ((Occurrence.repeatsEnd_iff _ last).mp hrepeats).1
      omega
    -- behind the occurrence the search goes on where the reading has ended
    have hskip := occurrencesFrom_skip p.searchPlan (some m.offset) xs (offset + x.utf8Size) m.rest
    rw [Nat.add_assoc, ← Text.byteLength_cons, ← hoffset] at hskip
    rw [occurrencesFrom_of_eq_some hbest, hnew, if_neg Bool.false_ne_true]
    exact congrArg _ hskip

end

end TreeQuery.Pattern
