import TreeQuery.Proofs.Pattern.Leftmost
import TreeQuery.Proofs.Pattern.Runs

/-! # Extents — where occurrences and groups may stand

    Whatever a pattern is, its occurrences stand in a text one behind the other,
    and what a group has read is a stretch of its occurrence. Nothing is said
    about which occurrences there are: a pattern may read nothing, and its groups
    may be anywhere inside of it.

    * **Stretches**: the stretch of a mark lies between characters of the text.
    * **Runs**: a run reads on in its text, and its marks are stretches of what it
      has read.
    * **Occurrences**: one search reports a stretch of the text, and all searches
      together report stretches in order that do not overlap.
-/

namespace TreeQuery.Pattern

/-! ### Stretches -/

/-- A mark is a stretch of a text that starts at an offset. -/
def Mark.LiesIn (m : Mark) (offset : Nat) (text : List Char) : Prop :=
  ∃ before read after, text = before ++ (read ++ after) ∧
    m.start = offset + Text.byteLength before ∧ m.stop = m.start + Text.byteLength read

/-- All of a text is a stretch of it. -/
theorem Mark.liesIn_self (name : String) (offset : Nat) (text : List Char) :
    Mark.LiesIn ⟨name, offset, offset + Text.byteLength text⟩ offset text :=
  ⟨[], text, [], by simp, rfl, rfl⟩

theorem Mark.LiesIn.append_right {m : Mark} {offset : Nat} {text : List Char}
    (h : m.LiesIn offset text) (more : List Char) : m.LiesIn offset (text ++ more) := by
  obtain ⟨before, read, after, rfl, hstart, hstop⟩ := h
  exact ⟨before, read, after ++ more, by simp, hstart, hstop⟩

theorem Mark.LiesIn.append_left {m : Mark} {offset : Nat} {text more : List Char}
    (h : m.LiesIn (offset + Text.byteLength more) text) : m.LiesIn offset (more ++ text) := by
  obtain ⟨before, read, after, rfl, hstart, hstop⟩ := h
  refine ⟨more ++ before, read, after, by simp, ?_, hstop⟩
  rw [hstart, Text.byteLength_append]
  omega

/-! ### Runs -/

/-- From one cursor to another a piece of the text has been read, and the marks left on the way
    are stretches of it. -/
structure Cursor.Extends (c : Cursor) (read : List Char) (c' : Cursor) : Prop where
  reaches : c.Reaches read c'
  marks : ∃ new, c'.marks = new ++ c.marks ∧ ∀ m ∈ new, m.LiesIn c.offset read

theorem Cursor.Extends.refl (c : Cursor) : c.Extends [] c :=
  ⟨.refl c, [], rfl, List.forall_mem_nil _⟩

theorem Cursor.Extends.trans {c d e : Cursor} {read more : List Char} (h : c.Extends read d)
    (h' : d.Extends more e) : c.Extends (read ++ more) e := by
  obtain ⟨new, hnew, hin⟩ := h.marks
  obtain ⟨new', hnew', hin'⟩ := h'.marks
  refine ⟨h.reaches.trans h'.reaches, new' ++ new, ?_, ?_⟩
  · rw [hnew', hnew, List.append_assoc]
  · intro m hm
    rcases List.mem_append.mp hm with hm | hm
    · have hlies := hin' m hm
      rw [h.reaches.offset] at hlies
      exact hlies.append_left
    · exact (hin m hm).append_right more

/-- A group marks what its body has read. -/
theorem Cursor.Extends.mark {c d : Cursor} {read : List Char} (h : c.Extends read d)
    (name : String) : c.Extends read (d.mark name c.offset) := by
  obtain ⟨new, hnew, hin⟩ := h.marks
  refine ⟨⟨h.reaches.rest, h.reaches.offset⟩, ⟨name, c.offset, d.offset⟩ :: new, ?_, ?_⟩
  · have hmarks : (d.mark name c.offset).marks = ⟨name, c.offset, d.offset⟩ :: d.marks := rfl
    rw [hmarks, hnew, List.cons_append]
  · intro m hm
    rcases List.mem_cons.mp hm with rfl | hm
    · rw [h.reaches.offset]
      exact Mark.liesIn_self name c.offset read
    · exact hin m hm

/-- Every run goes on in its text and marks stretches of what it has read. -/
theorem Plan.Admits.exists_extends {p : Plan} {c c' : Cursor} (h : p.Admits c c') :
    ∃ read, c.Extends read c' := by
  induction h with
  | empty c => exact ⟨[], .refl c⟩
  | @one _ _ x offset xs marks _ =>
    refine ⟨[x], ⟨rfl, ?_⟩, [], rfl, List.forall_mem_nil _⟩
    simp
  | start _ => exact ⟨[], .refl _⟩
  | finish _ => exact ⟨[], .refl _⟩
  | seq _ _ ih ih' =>
    obtain ⟨read, hread⟩ := ih
    obtain ⟨more, hmore⟩ := ih'
    exact ⟨read ++ more, hread.trans hmore⟩
  | preferred _ ih => exact ih
  | other _ ih => exact ih
  | @group name _ _ _ _ ih =>
    obtain ⟨read, hread⟩ := ih
    exact ⟨read, hread.mark name⟩
  | leave c => exact ⟨[], .refl c⟩
  | round _ _ ih ih' =>
    obtain ⟨read, hread⟩ := ih
    obtain ⟨more, hmore⟩ := ih'
    exact ⟨read ++ more, hread.trans hmore⟩

/-! ### One search -/

/-- What the groups have read behind the end of one more group. -/
theorem Cursor.mark?_mark (c : Cursor) (name : String) (began : Nat) (other : String) :
    (c.mark name began).reading.mark? other =
      if name = other then some ⟨name, began, c.offset⟩ else c.reading.mark? other := by
  show List.find? _ (⟨name, began, c.offset⟩ :: c.marks) = _
  by_cases h : name = other
  · rw [if_pos h, List.find?_cons_of_pos (by simpa using h)]
  · rw [if_neg h, List.find?_cons_of_neg (by simpa using h)]
    rfl

/-- An occurrence that reads a piece of a text at an offset: its groups mark stretches of it. -/
structure Occurrence.Spans (o : Occurrence) (offset : Nat) (read : List Char) : Prop where
  start : o.start = offset
  stop : o.reading.offset = offset + Text.byteLength read
  mark : ∀ name m, name ≠ whole → o.reading.mark? name = some m → m.LiesIn offset read

/-- What a search reports is a stretch of the text. -/
theorem exists_spans_of_search? {p : Pattern} {offset : Nat} {rest : List Char} {o : Occurrence}
    (h : p.searchPlan.search? offset rest = some o) :
    ∃ skipped read after, rest = skipped ++ (read ++ after) ∧
      o.Spans (offset + Text.byteLength skipped) read := by
  obtain ⟨r, hr, ho⟩ := Option.bind_eq_some_iff.mp h
  obtain ⟨c, hc, rfl⟩ := Plan.exists_admits_of_best? hr
  -- the run passes over some characters and then reads the pattern in the group of the search
  cases hc with
  | @seq _ _ _ d _ hskip hgroup =>
    obtain ⟨skipped, hskipped⟩ := hskip.exists_extends
    have hunmarked : d.marks = [] := hskip.marks_eq trivial
    have hstart : d.offset = offset + Text.byteLength skipped := hskipped.reaches.offset
    cases hgroup with
    | @group _ _ _ e hbody =>
      obtain ⟨read, hread⟩ := hbody.exists_extends
      obtain ⟨new, hnew, hin⟩ := hread.marks
      rw [hunmarked, List.append_nil] at hnew
      rw [Cursor.mark?_mark, if_pos rfl] at ho
      obtain rfl := Option.some.inj ho
      refine ⟨skipped, read, e.rest, ?_, hstart, ?_, ?_⟩
      · have hrest : rest = skipped ++ d.rest := hskipped.reaches.rest
        rw [hrest, hread.reaches.rest]
      · rw [← hstart]
        exact hread.reaches.offset
      · intro name m hname hm
        rw [Cursor.mark?_mark, if_neg hname.symm] at hm
        have hmem : m ∈ e.marks := List.mem_of_find?_eq_some hm
        rw [hnew] at hmem
        rw [← hstart]
        exact hin m hmem

/-! ### All searches -/

/-- Occurrences one behind the other in a text that starts at an offset. -/
inductive Occurrence.Along : Nat → List Char → List Occurrence → Prop where
  | nil (offset : Nat) (text : List Char) : Along offset text []
  | cons {offset : Nat} {skipped read after : List Char} {o : Occurrence} {os : List Occurrence} :
      o.Spans (offset + Text.byteLength skipped) read →
      Along o.reading.offset after os → Along offset (skipped ++ (read ++ after)) (o :: os)

/-- Occurrences may stand further on in a longer text. -/
theorem Occurrence.Along.append_left {offset : Nat} {more text : List Char}
    {os : List Occurrence} (h : Along (offset + Text.byteLength more) text os) :
    Along offset (more ++ text) os := by
  cases h with
  | nil => exact .nil _ _
  | @cons _ skipped read after o os hspans hrest =>
    rw [← List.append_assoc]
    refine .cons ?_ hrest
    rw [Text.byteLength_append, ← Nat.add_assoc]
    exact hspans

theorem Occurrence.Along.cons_left {offset : Nat} {x : Char} {xs : List Char}
    {os : List Occurrence} (h : Along (offset + x.utf8Size) xs os) : Along offset (x :: xs) os := by
  have hone : Text.byteLength [x] = x.utf8Size := Nat.add_zero _
  rw [← hone] at h
  exact h.append_left

/-- A search that may already have gone on goes on at once. -/
theorem occurrencesFrom_of_le (search : Plan) {offset goOn : Nat} (h : goOn ≤ offset)
    (last : Option Nat) (rest : List Char) :
    occurrencesFrom search offset goOn last rest =
      occurrencesFrom search offset offset last rest := by
  cases rest <;>
    simp only [occurrencesFrom, if_neg (Nat.not_lt.mpr h), if_neg (Nat.lt_irrefl offset)]

/-- Behind an occurrence the search goes on where the occurrence has ended, and at least one
    character further on. -/
theorem along_occurrencesFrom_behind (search : Plan) {offset : Nat} {x : Char}
    {xs read after : List Char} (htext : x :: xs = read ++ after) (last : Option Nat)
    (hshorter : ∀ offset text, text.length ≤ xs.length →
      Occurrence.Along offset text (occurrencesFrom search offset offset last text)) :
    Occurrence.Along (offset + Text.byteLength read) after
      (occurrencesFrom search (offset + x.utf8Size) (offset + Text.byteLength read) last xs) := by
  cases read with
  | nil =>
    -- nothing has been read, and what is found further on is found behind the occurrence
    rw [List.nil_append] at htext
    rw [Text.byteLength_nil, Nat.add_zero, occurrencesFrom_of_le _ (Nat.le_add_right _ _), ← htext]
    have hlater := hshorter (offset + x.utf8Size) xs (Nat.le_refl _)
    exact hlater.cons_left
  | cons y more =>
    -- the first character has been read, and the search passes over what else has been read
    rw [List.cons_append] at htext
    obtain ⟨rfl, rfl⟩ := List.cons.inj htext
    rw [Text.byteLength_cons, ← Nat.add_assoc, occurrencesFrom_skip]
    apply hshorter
    rw [List.length_append]
    exact Nat.le_add_left _ _

/-- The occurrences of a pattern stand one behind the other. -/
theorem along_occurrencesFrom (p : Pattern) (offset : Nat) (last : Option Nat)
    (text : List Char) :
    Occurrence.Along offset text (occurrencesFrom p.searchPlan offset offset last text) := by
  -- by induction on the length of the text: every search goes on in a shorter one
  induction hn : text.length using Nat.strongRecOn generalizing offset last text with
  | ind n ih =>
    cases text with
    | nil =>
      unfold occurrencesFrom
      rw [if_neg (Nat.lt_irrefl offset)]
      cases hfound : (p.searchPlan.search? offset []).filter fun o => !o.repeatsEnd last with
      | none => exact .nil _ _
      | some o =>
        have hsearch := (Option.filter_eq_some_iff.mp hfound).1
        obtain ⟨skipped, read, after, htext, hspans⟩ := exists_spans_of_search? hsearch
        rw [htext]
        exact .cons hspans (.nil _ _)
    | cons x xs =>
      have hshorter : ∀ last offset text, text.length ≤ xs.length →
          Occurrence.Along offset text (occurrencesFrom p.searchPlan offset offset last text) := by
        intro last offset text hlength
        have hlt : text.length < n := by
          rw [← hn, List.length_cons]
          exact Nat.lt_succ_of_le hlength
        exact ih text.length hlt offset last text rfl
      rw [occurrencesFrom]
      simp only [if_neg (Nat.lt_irrefl offset)]
      cases hsearch : p.searchPlan.search? offset (x :: xs) with
      | none => exact .nil _ _
      | some o =>
        by_cases hrepeats : o.repeatsEnd last = true
        · simp only [hrepeats, if_true]
          have hlater := hshorter last (offset + x.utf8Size) xs (Nat.le_refl _)
          exact hlater.cons_left
        · simp only [hrepeats]
          obtain ⟨skipped, read, after, htext, hspans⟩ := exists_spans_of_search? hsearch
          have hstop : o.reading.offset = offset + Text.byteLength (skipped ++ read) := by
            rw [hspans.stop, Text.byteLength_append, Nat.add_assoc]
          rw [htext]
          refine .cons hspans ?_
          rw [hstop]
          rw [← List.append_assoc] at htext
          exact along_occurrencesFrom_behind _ htext _ (hshorter _)

theorem along_occurrences (p : Pattern) (text : List Char) :
    Occurrence.Along 0 text (p.occurrences text) :=
  along_occurrencesFrom p 0 none text

end TreeQuery.Pattern
