import TreeQuery.Proofs.Grammar.Layout
import TreeQuery.Proofs.Pattern.Iteration

/-! # Stretches — every hit is a piece of the text

    The fragments of a scanner are joined as text. They may read nothing, close the
    group that they are in, or turn the joined pattern into one of another shape.
    Whatever becomes of it, as long as it is a pattern:

    * **Boundaries**: a hit starts and ends between characters of the text, and its
      text is what stands there.
    * **Order**: a hit ends before the next one starts.
    * **Rules**: a hit is one of a rule that has a fragment.
    * **The end**: the searches of a scan come to an end.
-/

namespace TreeQuery

/-! ### Boundaries -/

namespace Text

/-- An offset between two characters of a text, or at one of its ends. -/
def IsBoundary (text : List Char) (offset : Nat) : Prop :=
  ∃ before after, text = before ++ after ∧ byteLength before = offset

/-- A piece of a text stands at an offset. -/
def StandsAt (text : List Char) (offset : Nat) (piece : List Char) : Prop :=
  ∃ before after, text = before ++ (piece ++ after) ∧ byteLength before = offset

variable {text piece : List Char} {offset : Nat}

theorem StandsAt.start_isBoundary (h : StandsAt text offset piece) : IsBoundary text offset := by
  obtain ⟨before, after, rfl, rfl⟩ := h
  exact ⟨before, piece ++ after, rfl, rfl⟩

theorem StandsAt.stop_isBoundary (h : StandsAt text offset piece) :
    IsBoundary text (offset + byteLength piece) := by
  obtain ⟨before, after, rfl, rfl⟩ := h
  refine ⟨before ++ piece, after, ?_, byteLength_append before piece⟩
  rw [List.append_assoc]

theorem StandsAt.stop_le (h : StandsAt text offset piece) :
    offset + byteLength piece ≤ byteLength text := by
  obtain ⟨before, after, rfl, rfl⟩ := h
  simp only [byteLength_append]
  omega

theorem StandsAt.slice?_eq (h : StandsAt text offset piece) :
    slice? text offset (offset + byteLength piece) = some piece := by
  obtain ⟨before, after, rfl, rfl⟩ := h
  have hslice := slice?_append before piece after
  rwa [List.append_assoc, byteLength_append] at hslice

theorem StandsAt.append_left (h : StandsAt text offset piece) (more : List Char) :
    StandsAt (more ++ text) (byteLength more + offset) piece := by
  obtain ⟨before, after, rfl, rfl⟩ := h
  refine ⟨more ++ before, after, ?_, byteLength_append more before⟩
  rw [List.append_assoc]

end Text

/-- A hit is a stretch of a text: it starts and ends between characters of the text, in order, and
    its text is what stands between. -/
structure Hit.IsStretch (hit : Hit) (text : List Char) : Prop where
  ordered : hit.start ≤ hit.stop
  within : hit.stop ≤ Text.byteLength text
  start_isBoundary : Text.IsBoundary text hit.start
  stop_isBoundary : Text.IsBoundary text hit.stop
  slice?_eq : Text.slice? text hit.start hit.stop = some hit.text.toList

theorem Hit.isStretch_of_standsAt {hit : Hit} {text : List Char}
    (h : Text.StandsAt text hit.start hit.text.toList)
    (hstop : hit.stop = hit.start + Text.byteLength hit.text.toList) : hit.IsStretch text where
  ordered := by omega
  within := hstop ▸ h.stop_le
  start_isBoundary := h.start_isBoundary
  stop_isBoundary := hstop ▸ h.stop_isBoundary
  slice?_eq := hstop ▸ h.slice?_eq

namespace Hit.Along

variable {offset : Nat} {text : List Char} {hits : List Hit} {hit : Hit}

/-- Of hits that stand one behind the other, every one stands somewhere in the text. -/
theorem exists_standsAt (h : Along offset text hits) (hhit : hit ∈ hits) :
    ∃ start, hit.start = offset + start ∧ Text.StandsAt text start hit.text.toList ∧
      hit.stop = hit.start + Text.byteLength hit.text.toList := by
  induction h with
  | nil => cases hhit
  | @cons offset gap read after hits rule _ ih =>
    rcases List.mem_cons.mp hhit with rfl | hbehind
    · rw [String.toList_ofList]
      exact ⟨Text.byteLength gap, rfl, ⟨gap, after, rfl, rfl⟩, rfl⟩
    · obtain ⟨start, hstart, hstands, hstop⟩ := ih hbehind
      refine ⟨Text.byteLength (gap ++ read) + start, ?_, ?_, hstop⟩
      · rw [hstart, Text.byteLength_append]
        omega
      · rw [← List.append_assoc]
        exact hstands.append_left (gap ++ read)

theorem isStretch (h : Along 0 text hits) (hhit : hit ∈ hits) : hit.IsStretch text := by
  obtain ⟨start, hstart, hstands, hstop⟩ := h.exists_standsAt hhit
  rw [Nat.zero_add] at hstart
  rw [← hstart] at hstands
  exact Hit.isStretch_of_standsAt hstands hstop

/-! ### Order -/

theorem le_start (h : Along offset text hits) (hhit : hit ∈ hits) : offset ≤ hit.start := by
  obtain ⟨start, hstart, -⟩ := h.exists_standsAt hhit
  omega

theorem pairwise_stop_le_start (h : Along offset text hits) :
    hits.Pairwise fun hit later => hit.stop ≤ later.start := by
  induction h with
  | nil => exact .nil
  | cons _ hbehind ih => exact .cons (fun _ hlater => hbehind.le_start hlater) ih

end Hit.Along

namespace Scanner

/-! ### Rules -/

variable {room : Pattern.Room} {fragments : List (Rule × String)} {s : Scanner}

theorem rules_of_outcome (h : (ofFragments room fragments).outcome = .ok s) :
    s.rules = fragments.map (·.1) := by
  obtain ⟨pattern, _, h⟩ := Journal.outcome_bind_eq_ok_iff.mp h
  obtain ⟨_, _, h⟩ := Journal.outcome_bind_eq_ok_iff.mp h
  obtain rfl := Except.ok.inj h
  rfl

theorem rule_mem_of_hit? {rules : List Rule} {text : List Char} {o : Pattern.Occurrence} {hit : Hit}
    (h : hit? rules text o = some hit) : hit.rule ∈ rules := by
  obtain ⟨rule, hrule, hfound⟩ := List.exists_of_findSome?_eq_some h
  obtain ⟨m, _, rfl⟩ := Option.map_eq_some_iff.mp hfound
  exact hrule

theorem rule_mem_of_mem_scan {text : String} {hit : Hit} (h : hit ∈ s.scan text) :
    hit.rule ∈ s.rules := by
  obtain ⟨o, _, ho⟩ := List.mem_filterMap.mp h
  exact rule_mem_of_hit? ho

/-! ### The end -/

/-- **Main theorem**: whatever fragments a scanner is made of, a scan comes to an end after at most
    two searches for each character and two more. Its hits are stretches of the text, one behind the
    other, and each is of a rule that has a fragment. -/
theorem scan_ends_in_stretches (h : (ofFragments room fragments).outcome = .ok s)
    (text : String) :
    (∃ os steps, steps ≤ 2 * text.toList.length + 2 ∧
      s.pattern.searchPlan.Iterates 0 none text.toList os steps ∧
      s.scan text = os.filterMap (hit? s.rules text.toList)) ∧
    (∀ hit ∈ s.scan text, hit.IsStretch text.toList ∧ hit.rule ∈ fragments.map (·.1)) ∧
    (s.scan text).Pairwise fun hit later => hit.stop ≤ later.start := by
  have halong := s.along_scan text
  refine ⟨?_, ?_, halong.pairwise_stop_le_start⟩
  · obtain ⟨steps, hsteps, hiterates⟩ := Pattern.exists_iterates s.pattern 0 none text.toList
    exact ⟨_, steps, hsteps, hiterates, rfl⟩
  · intro hit hhit
    refine ⟨halong.isStretch hhit, ?_⟩
    rw [← rules_of_outcome h]
    exact rule_mem_of_mem_scan hhit

/-- A fragment that goes on outside of its group, and one that may read nothing. -/
def brokenFragments : List (Rule × String) := [(.className, "a)|(b"), (.name, "é*")]

/-- What the second half of the broken fragment reads is passed over, and so is the empty name
    behind it. -/
theorem scan_ends_in_stretches_broken :
    ∃ s, (ofFragments .unlimited brokenFragments).outcome = .ok s ∧
      s.scan "éabé" = [⟨"é", 0, 2, .name⟩, ⟨"a", 2, 3, .className⟩, ⟨"é", 4, 6, .name⟩] ∧
      (∀ hit ∈ s.scan "éabé", hit.IsStretch "éabé".toList ∧ hit.rule ∈ [.className, .name]) ∧
      (s.scan "éabé").Pairwise fun hit later => hit.stop ≤ later.start := by
  have hread : ((ofFragments .unlimited brokenFragments).outcome.toOption.map fun s =>
      s.scan "éabé") =
      some [⟨"é", 0, 2, .name⟩, ⟨"a", 2, 3, .className⟩, ⟨"é", 4, 6, .name⟩] := by decide +kernel
  obtain ⟨s, hs, hscan⟩ := Option.map_eq_some_iff.mp hread
  have houtcome := Journal.eq_ok_of_toOption hs
  obtain ⟨_, hstretches, hordered⟩ := scan_ends_in_stretches houtcome "éabé"
  exact ⟨s, houtcome, hscan, hstretches, hordered⟩

end Scanner

end TreeQuery
