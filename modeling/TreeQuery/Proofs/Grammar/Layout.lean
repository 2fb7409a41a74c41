import TreeQuery.Grammar.Scanner
import TreeQuery.Proofs.Pattern.Branches
import TreeQuery.Proofs.Pattern.Extent

/-! # Layout — hits stand one behind the other

    A fragment is joined into the pattern of a scanner as text, so it may read
    nothing, and it may close its group and go on outside of it. Even so the hits
    of a scanner are stretches of the text in order, and no two of them overlap:
    a hit is what a group has read, and a group reads inside its occurrence.

    * **One hit**: where one group has read the whole occurrence, that is the hit.
    * **All hits** stand one behind the other.
-/

namespace TreeQuery

/-- Hits one behind the other in a text that starts at an offset. -/
inductive Hit.Along : Nat → List Char → List Hit → Prop where
  | nil (offset : Nat) (text : List Char) : Along offset text []
  | cons {offset : Nat} {gap read after : List Char} {hits : List Hit} (rule : Rule) :
      Along (offset + Text.byteLength gap + Text.byteLength read) after hits →
      Along offset (gap ++ (read ++ after))
        (⟨String.ofList read, offset + Text.byteLength gap,
          offset + Text.byteLength gap + Text.byteLength read, rule⟩ :: hits)

/-- Hits may stand further on in a longer text. -/
theorem Hit.Along.append_left {offset : Nat} {more text : List Char} {hits : List Hit}
    (h : Along (offset + Text.byteLength more) text hits) : Along offset (more ++ text) hits := by
  cases h with
  | nil => exact .nil _ _
  | @cons _ gap read after hits rule hrest =>
    have hoffset : offset + Text.byteLength more + Text.byteLength gap =
        offset + Text.byteLength (more ++ gap) := by
      rw [Text.byteLength_append, Nat.add_assoc]
    rw [hoffset] at hrest ⊢
    rw [← List.append_assoc]
    exact .cons rule hrest

/-- A hit may stand inside of a longer piece of the text. -/
theorem Hit.Along.cons_within {offset : Nat} {lead read trail after : List Char}
    {hits : List Hit} (rule : Rule)
    (h : Along (offset + Text.byteLength (lead ++ (read ++ trail))) after hits) :
    Along offset (lead ++ (read ++ trail) ++ after)
      (⟨String.ofList read, offset + Text.byteLength lead,
        offset + Text.byteLength lead + Text.byteLength read, rule⟩ :: hits) := by
  have htrail : Along (offset + Text.byteLength lead + Text.byteLength read) (trail ++ after)
      hits := by
    apply append_left
    simpa only [Text.byteLength_append, Nat.add_assoc] using h
  rw [List.append_assoc, List.append_assoc]
  exact .cons rule htrail

theorem Rule.groupName_ne_whole (r : Rule) : r.groupName ≠ Pattern.whole := by
  cases r <;> decide

namespace Scanner

/-! ### One hit -/

/-- The hit of a rule between two offsets. -/
def hitOf (text : List Char) (rule : Rule) (start stop : Nat) : Hit :=
  ⟨String.ofList (Text.slice text start stop), start, stop, rule⟩

/-- What is read where nothing but the group of a rule takes part. -/
def readingOf (rule : Rule) (start stop : Nat) : Pattern.Reading :=
  ⟨stop, [⟨rule.groupName, start, stop⟩]⟩

theorem mark?_occurrence_readingOf (rule r : Rule) (start stop : Nat) :
    ((readingOf rule start stop).occurrence start).reading.mark? r.groupName =
      if r = rule then some ⟨rule.groupName, start, stop⟩ else none := by
  have hwhole : Pattern.whole ≠ r.groupName := r.groupName_ne_whole.symm
  show [_, _].find? _ = _
  rw [List.find?_cons_of_neg (by simpa using hwhole)]
  by_cases hr : r = rule
  · subst hr
    rw [if_pos rfl, List.find?_cons_of_pos (by exact beq_self_eq_true _)]
  · rw [if_neg hr, List.find?_cons_of_neg]
    · rfl
    · intro hname
      exact hr (Rule.groupName_injective (beq_iff_eq.mp hname)).symm

/-- The hit of such an occurrence is what the group of its rule has read. -/
theorem hit?_occurrence_readingOf {rules : List Rule} {rule : Rule} (hrule : rule ∈ rules)
    (text : List Char) (start stop : Nat) :
    hit? rules text ((readingOf rule start stop).occurrence start) =
      some (hitOf text rule start stop) := by
  unfold hit?
  induction rules with
  | nil => cases hrule
  | cons r rules ih =>
    rw [List.findSome?_cons, mark?_occurrence_readingOf]
    by_cases hr : r = rule
    · rw [if_pos hr, hr]
      rfl
    · rw [if_neg hr]
      exact ih ((List.mem_cons.mp hrule).resolve_left fun heq => hr heq.symm)

/-! ### All hits -/

/-- The hit of an occurrence is a stretch of what the occurrence reads. -/
theorem exists_of_hit?_eq_some {rules : List Rule} {before read after : List Char}
    {o : Pattern.Occurrence} (ho : o.Spans (Text.byteLength before) read) {h : Hit}
    (hhit : hit? rules (before ++ (read ++ after)) o = some h) :
    ∃ lead text trail, read = lead ++ (text ++ trail) ∧
      h = ⟨String.ofList text, Text.byteLength before + Text.byteLength lead,
        Text.byteLength before + Text.byteLength lead + Text.byteLength text, h.rule⟩ := by
  obtain ⟨rule, _, hrule⟩ := List.exists_of_findSome?_eq_some hhit
  obtain ⟨m, hm, rfl⟩ := Option.map_eq_some_iff.mp hrule
  obtain ⟨lead, text, trail, rfl, hstart, hstop⟩ := ho.mark _ m rule.groupName_ne_whole hm
  refine ⟨lead, text, trail, rfl, ?_⟩
  have hslice := Text.slice_append (before ++ lead) text (trail ++ after)
  rw [Text.byteLength_append] at hslice
  have hcut : before ++ (lead ++ (text ++ trail) ++ after) =
      before ++ lead ++ (text ++ (trail ++ after)) := by simp
  rw [hstop, hstart, hcut, hslice]

/-- The hits of occurrences that stand one behind the other do so, too. -/
theorem along_filterMap_hit? (rules : List Rule) {before rest : List Char}
    {os : List Pattern.Occurrence}
    (h : Pattern.Occurrence.Along (Text.byteLength before) rest os) :
    Hit.Along (Text.byteLength before) rest (os.filterMap (hit? rules (before ++ rest))) := by
  generalize hoffset : Text.byteLength before = offset at h
  -- by induction on the occurrences: what has been read moves to the front
  induction h generalizing before with
  | nil offset text => exact .nil offset text
  | @cons offset skipped read after o os hspans _ ih =>
    subst hoffset
    rw [← Text.byteLength_append] at hspans
    have hread : Text.byteLength (before ++ skipped ++ read) = o.reading.offset := by
      rw [hspans.stop, Text.byteLength_append _ read]
    have hrest := ih hread
    rw [List.append_assoc, List.append_assoc, hspans.stop] at hrest
    have hcut : before ++ (skipped ++ (read ++ after)) = before ++ skipped ++ (read ++ after) := by
      rw [List.append_assoc]
    cases hhit : hit? rules (before ++ (skipped ++ (read ++ after))) o with
    | none =>
      -- no group of a rule has taken part, so the occurrence is passed over
      rw [List.filterMap_cons_none hhit]
      apply Hit.Along.append_left
      rw [← Text.byteLength_append]
      exact hrest.append_left
    | some found =>
      -- the hit is somewhere inside of the occurrence
      rw [List.filterMap_cons_some hhit]
      rw [hcut] at hhit
      obtain ⟨lead, text, trail, hlead, hfound⟩ := exists_of_hit?_eq_some hspans hhit
      subst hlead
      rw [hfound]
      apply Hit.Along.append_left
      rw [← Text.byteLength_append]
      exact hrest.cons_within found.rule

/-- The hits of every scanner stand one behind the other in the text. -/
theorem along_scan (s : Scanner) (text : String) : Hit.Along 0 text.toList (s.scan text) :=
  @along_filterMap_hit? s.rules [] _ _ (Pattern.along_occurrences s.pattern text.toList)

end Scanner

end TreeQuery
