import TreeQuery.Proofs.Pattern.Drafting

/-! # Tails — readings without offsets and marks

    A pattern without named groups and without anchors neither
    looks at the offset nor leaves marks. All there is to know about a reading of
    it is what it leaves of the text, its *tail*, and the tails of a text can be
    told from lists of characters alone.
-/

namespace TreeQuery.Pattern

/-- The cursor where only a tail of the text is left. -/
def Cursor.leap (c : Cursor) (tail : List Char) : Cursor :=
  ⟨c.offset + (Text.byteLength c.rest - Text.byteLength tail), tail, c.marks⟩

namespace Reader

/-- What the readings of a text leave of it, the preferred one first. -/
def tails (r : Reader) (cs : List Char) : List (List Char) :=
  (r ⟨0, cs, []⟩).map Cursor.rest

/-- A reader that only looks at the text in front of it and leaves no marks. -/
structure Plain (r : Reader) : Prop where
  steady : Steady r
  eq_leap : ∀ c, r c = (r.tails c.rest).map c.leap

/-- A tail of a text is what some piece of the text is followed by. -/
theorem Steady.exists_of_mem_tails {r : Reader} (h : Steady r) {cs tail : List Char}
    (htail : tail ∈ r.tails cs) : ∃ read, cs = read ++ tail := by
  obtain ⟨c, hc, rfl⟩ := List.mem_map.mp htail
  obtain ⟨read, hread⟩ := h _ c hc
  exact ⟨read, hread.rest⟩

theorem Plain.map_rest {r : Reader} (h : Plain r) (c : Cursor) :
    (r c).map Cursor.rest = r.tails c.rest := by
  rw [h.eq_leap c, List.map_map]
  exact List.map_id _

/-- Two leaps make one. -/
theorem leap_leap {c : Cursor} {read more tail : List Char} (hc : c.rest = read ++ (more ++ tail)) :
    (c.leap (more ++ tail)).leap tail = c.leap tail := by
  unfold Cursor.leap
  simp only [hc, Text.byteLength_append]
  congr 1
  omega

/-! ### Tails of the combinators -/

theorem plain_skip : Plain skip where
  steady := steady_skip
  eq_leap c := by
    show [c] = [c.leap c.rest]
    unfold Cursor.leap
    rw [Nat.sub_self, Nat.add_zero]

@[simp] theorem tails_skip (cs : List Char) : skip.tails cs = [cs] := rfl

@[simp] theorem tails_one_cons (set : CharSet) (x : Char) (xs : List Char) :
    (one set).tails (x :: xs) = if set.contains x then [xs] else [] := by
  unfold tails one
  by_cases hx : set.contains x = true <;> simp [hx]

theorem plain_one (set : CharSet) : Plain (one set) where
  steady := steady_one set
  eq_leap c := by
    obtain ⟨offset, rest, marks⟩ := c
    cases rest with
    | nil => rfl
    | cons x xs =>
      rw [tails_one_cons]
      unfold one Cursor.leap
      by_cases hx : set.contains x = true
      · simp [hx]
      · simp [hx]

variable {r s : Reader}

theorem Plain.tails_seq (hs : Plain s) (cs : List Char) :
    (seq r s).tails cs = (r.tails cs).flatMap s.tails := by
  unfold seq
  show List.map Cursor.rest ((r ⟨0, cs, []⟩).flatMap s) =
    (List.map Cursor.rest (r ⟨0, cs, []⟩)).flatMap s.tails
  rw [List.map_flatMap, List.flatMap_map]
  exact List.flatMap_congr fun m _ => hs.map_rest m

theorem Plain.seq (hr : Plain r) (hs : Plain s) : Plain (seq r s) where
  steady := hr.steady.seq hs.steady
  eq_leap c := by
    rw [hs.tails_seq, List.map_flatMap]
    show (r c).flatMap s = _
    rw [hr.eq_leap c, List.flatMap_map]
    refine List.flatMap_congr fun m hm => ?_
    rw [hs.eq_leap (c.leap m)]
    refine List.map_congr_left fun t ht => ?_
    -- a tail of a tail is reached in two leaps or in one
    obtain ⟨read, hread⟩ := hr.steady.exists_of_mem_tails hm
    obtain ⟨more, hmore⟩ := hs.steady.exists_of_mem_tails ht
    obtain rfl : m = more ++ t := hmore
    exact leap_leap hread

theorem tails_alt (r s : Reader) (cs : List Char) :
    (alt r s).tails cs = r.tails cs ++ s.tails cs := by
  unfold tails alt
  rw [List.map_append]

theorem Plain.alt (hr : Plain r) (hs : Plain s) : Plain (alt r s) where
  steady := hr.steady.alt hs.steady
  eq_leap c := by
    rw [tails_alt, List.map_append, ← hr.eq_leap c, ← hs.eq_leap c]
    rfl

theorem Plain.prefer (hr : Plain r) (hs : Plain s) (greedy : Bool) :
    Plain (prefer greedy r s) := by
  unfold Reader.prefer
  cases greedy
  · exact hs.alt hr
  · exact hr.alt hs

theorem Plain.roundsWithin (hr : Plain r) (greedy : Bool) (k : Nat) :
    Plain (roundsWithin greedy r k) := by
  induction k with
  | zero => exact plain_skip
  | succ k ih => exact (hr.seq ih).prefer plain_skip greedy

theorem Plain.rounds (hr : Plain r) (greedy : Bool) : Plain (rounds greedy r) where
  steady := hr.steady.rounds greedy
  eq_leap c := (hr.roundsWithin greedy c.rest.length).eq_leap c

theorem Plain.exactly (hr : Plain r) (n : Nat) : Plain (exactly r n) := by
  induction n with
  | zero => exact plain_skip
  | succ n ih => exact hr.seq ih

theorem Plain.repeated (hr : Plain r) (times : Times) : Plain (repeated times r) := by
  unfold Reader.repeated
  cases times.most with
  | none => exact (hr.exactly _).seq (hr.rounds _)
  | some most => exact (hr.exactly _).seq (hr.roundsWithin _ _)

/-- The tails of a greedy loop: one more round comes first, leaving the loop last. -/
theorem Plain.tails_rounds (hr : Plain r) (hadvance : Advancing r) (cs : List Char) :
    (Reader.rounds true r).tails cs =
      (r.tails cs).flatMap (Reader.rounds true r).tails ++ [cs] := by
  conv => lhs; rw [rounds_eq true hadvance]
  unfold Reader.prefer
  rw [if_pos rfl, tails_alt, (hr.rounds true).tails_seq, tails_skip]

theorem Plain.tails_roundsWithin_succ (hr : Plain r) (k : Nat) (cs : List Char) :
    (Reader.roundsWithin true r (k + 1)).tails cs =
      (r.tails cs).flatMap (Reader.roundsWithin true r k).tails ++ [cs] := by
  rw [Reader.roundsWithin]
  unfold Reader.prefer
  rw [if_pos rfl, tails_alt, (hr.roundsWithin true k).tails_seq, tails_skip]

end Reader

/-! ### Plain patterns -/

/-- Whether a pattern has neither a named group nor an anchor. -/
def isPlain : Pattern → Bool
  | .empty | .one _ => true
  | .start | .finish => false
  | .seq first second => first.isPlain && second.isPlain
  | .alt preferred other => preferred.isPlain && other.isPlain
  | .group none body => body.isPlain
  | .group (some _) _ => false
  | .repeated _ body => body.isPlain

theorem plain_readings {p : Pattern} (h : p.isPlain = true) : Reader.Plain p.readings := by
  induction p with
  | empty => exact Reader.plain_skip
  | one set => exact Reader.plain_one set
  | start => cases h
  | finish => cases h
  | seq first second ihf ihs =>
    obtain ⟨hf, hs⟩ := Bool.and_eq_true_iff.mp h
    exact (ihf hf).seq (ihs hs)
  | alt preferred other ihp iho =>
    obtain ⟨hp, ho⟩ := Bool.and_eq_true_iff.mp h
    exact (ihp hp).alt (iho ho)
  | group name body ih =>
    cases name with
    | none => exact ih h
    | some name => cases h
  | repeated times body ih => exact (ih h).repeated times

/-- A chain reads its parts one after another. -/
theorem readings_chain_cons (p : Pattern) (ps : List Pattern) :
    (chain (p :: ps)).readings = .seq p.readings (chain ps).readings := by
  cases ps with
  | nil => exact (Reader.seq_skip p.readings).symm
  | cons q ps => rfl

theorem readings_chain_append (ps qs : List Pattern) :
    (chain (ps ++ qs)).readings = .seq (chain ps).readings (chain qs).readings := by
  induction ps with
  | nil => exact (Reader.skip_seq _).symm
  | cons p ps ih =>
    rw [List.cons_append, readings_chain_cons, readings_chain_cons, ih, Reader.seq_assoc]

end TreeQuery.Pattern
