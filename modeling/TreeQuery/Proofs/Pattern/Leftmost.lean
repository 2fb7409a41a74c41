import TreeQuery.Pattern.Occurrence
import TreeQuery.Proofs.Pattern.Drafting

/-! # Leftmost occurrences — a search goes from left to right

    One search reads a text once, all starts at a time. What it finds is what the
    plain way finds: try the first offset; if the pattern has a reading there, take
    the preferred one; if not, pass over one character and try the next.

    The statements are about productive patterns, whose readings can be listed.
-/

namespace TreeQuery.Pattern

/-- What is found at a start when a cursor is reached. -/
def Cursor.occurrence (start : Nat) (c : Cursor) : Occurrence :=
  ⟨start, (c.mark whole start).reading⟩

theorem Cursor.Reaches.offset_lt {c c' : Cursor} {read : List Char} (h : c.Reaches read c')
    (hread : c'.rest.length < c.rest.length) : c.offset < c'.offset := by
  cases read with
  | nil =>
    rw [h.rest] at hread
    exact absurd hread (Nat.lt_irrefl _)
  | cons x xs =>
    have hx := x.utf8Size_pos
    rw [h.offset, Text.byteLength_cons]
    omega

/-! ### The search -/

/-- The readings of a search: the pattern, as few characters further on as possible. -/
def searchReadings (p : Pattern) : Reader :=
  .seq (.rounds false (.one .any)) (.group whole p.readings)

theorem searchReadings_nil (p : Pattern) (offset : Nat) (marks : List Mark) :
    p.searchReadings ⟨offset, [], marks⟩ =
      Reader.group whole p.readings ⟨offset, [], marks⟩ := by
  show (Reader.skip ⟨offset, [], marks⟩).flatMap _ = _
  exact List.flatMap_singleton ..

theorem searchReadings_cons (p : Pattern) (offset : Nat) (c : Char) (cs : List Char)
    (marks : List Mark) :
    p.searchReadings ⟨offset, c :: cs, marks⟩ =
      Reader.group whole p.readings ⟨offset, c :: cs, marks⟩ ++
        p.searchReadings ⟨offset + c.utf8Size, cs, marks⟩ := by
  unfold searchReadings
  conv => lhs; rw [Reader.rounds_eq false (Reader.advancing_one .any)]
  unfold Reader.prefer
  rw [if_neg Bool.false_ne_true, Reader.alt_seq, Reader.skip_seq, Reader.seq_assoc]
  have hone : Reader.one .any ⟨offset, c :: cs, marks⟩ =
      [⟨offset + c.utf8Size, cs, marks⟩] := rfl
  show _ ++ (Reader.one .any ⟨offset, c :: cs, marks⟩).flatMap _ = _
  rw [hone, List.flatMap_singleton]

theorem best?_searchPlan {p : Pattern} (h : p.Productive) (offset : Nat) (rest : List Char) :
    p.searchPlan.best? offset rest =
      (p.searchReadings ⟨offset, rest, []⟩).head?.map Cursor.reading := by
  have hsearch := ((Draft.Realizes.one .any).loop false).seq
    ((realizes_draft h).group whole)
  exact hsearch.best?_eq 0 offset rest

/-- A reading of the whole pattern says where it starts. -/
theorem head?_group_whole (r : Reader) (offset : Nat) (rest : List Char) :
    ((Reader.group whole r ⟨offset, rest, []⟩).head?.map Cursor.reading).bind
        (fun reading => (reading.mark? whole).map fun m => (⟨m.start, reading⟩ : Occurrence)) =
      (r ⟨offset, rest, []⟩).head?.map (Cursor.occurrence offset) := by
  unfold Reader.group
  rw [List.head?_map]
  cases (r ⟨offset, rest, []⟩).head? with
  | none => rfl
  | some c =>
    have hmark : (c.mark whole offset).reading.mark? whole = some ⟨whole, offset, c.offset⟩ :=
      List.find?_cons_of_pos (beq_self_eq_true whole)
    simp only [Option.map_some, Option.bind_some, hmark]
    rfl

theorem search?_nil {p : Pattern} (h : p.Productive) (offset : Nat) :
    p.searchPlan.search? offset [] =
      (p.readings ⟨offset, [], []⟩).head?.map (Cursor.occurrence offset) := by
  unfold Plan.search?
  rw [best?_searchPlan h, searchReadings_nil]
  exact head?_group_whole p.readings offset []

/-- A search tries the first start before it tries the others. -/
theorem search?_cons {p : Pattern} (h : p.Productive) (offset : Nat) (c : Char)
    (cs : List Char) :
    p.searchPlan.search? offset (c :: cs) =
      ((p.readings ⟨offset, c :: cs, []⟩).head?.map (Cursor.occurrence offset)).or
        (p.searchPlan.search? (offset + c.utf8Size) cs) := by
  unfold Plan.search?
  rw [best?_searchPlan h, best?_searchPlan h, searchReadings_cons, List.head?_append,
    ← head?_group_whole]
  cases hhead : (Reader.group whole p.readings ⟨offset, c :: cs, []⟩).head? with
  | none => rfl
  | some m =>
    -- a reading of the pattern here is marked with its start, so the search reports it
    have hgroup := head?_group_whole p.readings offset (c :: cs)
    obtain ⟨o, ho⟩ : ∃ o, (p.readings ⟨offset, c :: cs, []⟩).head? = some o := by
      unfold Reader.group at hhead
      rw [List.head?_map] at hhead
      exact (Option.map_eq_some_iff.mp hhead).imp fun _ h => h.1
    rw [hhead, ho] at hgroup
    rw [Option.some_or, hgroup]
    rfl

/-! ### Passing over what has been read -/

theorem occurrencesFrom_skip (search : Plan) (last : Option Nat) (read : List Char)
    (offset : Nat) (rest : List Char) :
    occurrencesFrom search offset (offset + Text.byteLength read) last (read ++ rest) =
      occurrencesFrom search (offset + Text.byteLength read) (offset + Text.byteLength read) last
        rest := by
  induction read generalizing offset with
  | nil => rfl
  | cons c cs ih =>
    have hc := c.utf8Size_pos
    have hlt : offset < offset + Text.byteLength (c :: cs) := by
      rw [Text.byteLength_cons]
      omega
    rw [List.cons_append, occurrencesFrom]
    simp only [if_pos hlt]
    rw [Text.byteLength_cons, ← Nat.add_assoc]
    exact ih (offset + c.utf8Size)

end TreeQuery.Pattern
