import TreeQuery.Proofs.Grammar.Joined
import TreeQuery.Proofs.Grammar.Layout
import TreeQuery.Proofs.Pattern.Stepping

/-! # Trials — the joined pattern tries the fragments in order

    At every offset the fragments are tried one after another, each of them on its
    own, and the first that matches gives a hit. The next trial is behind it. If the
    fragments are patterns by themselves and name no groups, this is what the scanner
    of the joined pattern finds.

    * **Trials**: the hits of trying the fragments, one offset after another.
    * **One offset**: the joined pattern prefers the match of the first fragment that
      matches.
    * **All offsets**: occurrences and trials go through a text in the same steps.
    * **Limits**: joining makes a pattern deeper and larger, and what is too deep, or
      what there is no room for, is refused, even if every fragment by itself is not.
-/

namespace TreeQuery.Scanner

open Pattern

/-! ### Trials -/

/-- Where the match ends that a fragment by itself prefers at an offset. -/
def matchEnd? (fragment : String) (offset : Nat) (rest : List Char) : Option Nat :=
  match ofString fragment with
  | .ok p => (p.plan.best? offset rest).map (·.offset)
  | .error _ => none

theorem matchEnd?_of_ofString {fragment : String} {p : Pattern} (hp : ofString fragment = .ok p)
    (offset : Nat) (rest : List Char) :
    matchEnd? fragment offset rest = (p.plan.best? offset rest).map (·.offset) := by
  unfold matchEnd?
  rw [hp]

/-- The first rule whose fragment matches at an offset, and where the match ends. -/
def firstMatch? (fragments : List (Rule × String)) (offset : Nat) (rest : List Char) :
    Option (Rule × Nat) :=
  fragments.findSome? fun f => (matchEnd? f.2 offset rest).map fun stop => (f.1, stop)

section

variable (fragments : List (Rule × String)) (text : List Char)

/-- The hits of trying the fragments in the rest of a text, given the offset at which the rest
    starts, the offset at which the trials go on, and where the last match has ended. An empty match
    is no hit where the last match has ended. -/
def trialsFrom (offset goOn : Nat) (last : Option Nat) : List Char → List Hit
  | [] =>
    if offset < goOn then []
    else
      match firstMatch? fragments offset [] with
      | none => []
      | some (rule, stop) =>
        if stop = offset ∧ last = some offset then [] else [hitOf text rule offset stop]
  | c :: cs =>
    let next := offset + c.utf8Size
    if offset < goOn then trialsFrom next goOn last cs
    else
      match firstMatch? fragments offset (c :: cs) with
      | none => trialsFrom next next last cs
      | some (rule, stop) =>
        if stop = offset ∧ last = some offset then trialsFrom next next last cs
        else hitOf text rule offset stop :: trialsFrom next stop (some stop) cs

/-- The hits of trying the fragments in a text, from left to right. -/
def trials : List Hit := trialsFrom fragments text 0 0 none text

end

/-! ### One offset -/

theorem Spells.part_pattern {fragment : Rule × String} {b : Branch} (h : Spells fragment b)
    {p : Pattern} (hp : ofString fragment.2 = .ok p) : b.part.pattern = p := by
  have hpart : part fragment.2 = .ok b.part := by
    unfold part
    rw [h.read]
    exact b.spells
  rw [ofString_eq, hpart] at hp
  exact Part.pattern_of_checked hp

/-- The group of a rule prefers what its fragment prefers by itself. -/
theorem Spells.best?_group {fragment : Rule × String} {b : Branch} (h : Spells fragment b)
    (hpattern : ∃ p, ofString fragment.2 = .ok p) (offset : Nat) (rest : List Char) :
    b.group.pattern.plan.best? offset rest =
      (matchEnd? fragment.2 offset rest).map fun stop => readingOf fragment.1 offset stop := by
  obtain ⟨p, hp⟩ := hpattern
  have hnamed : p.Named fun _ => False := by
    unfold ofString Pattern.read at hp
    rw [h.read] at hp
    exact named_ofLexemes b.unnamed hp
  have hgroup : b.group.pattern = .group (some fragment.1.groupName) p := by
    rw [← h.name, ← h.part_pattern hp]
    rfl
  rw [matchEnd?_of_ofString hp, hgroup, Pattern.best?_group, Option.map_map]
  cases hbest : p.plan.best? offset rest with
  | none => rfl
  | some r =>
    -- the fragment marks nothing, so the group of the rule is the only mark
    have hmarks : r.marks = [] := marks_eq_nil_of_best? offset rest hnamed hbest
    simp [Reading.closed, readingOf, hmarks]

/-- A pattern prefers, wherever it is tried, the match of the first fragment that matches. -/
def Tries (p : Pattern) (fragments : List (Rule × String)) : Prop :=
  ∀ offset rest, p.plan.best? offset rest =
    (firstMatch? fragments offset rest).map fun found => readingOf found.1 offset found.2

/-- The choice between the groups of the rules tries the fragments. -/
theorem tries_choice {fragments : List (Rule × String)} {bs : List Branch}
    (h : List.Forall₂ Spells fragments bs)
    (hpatterns : ∀ f ∈ fragments, ∃ p, ofString f.2 = .ok p) (hne : fragments ≠ []) :
    Tries (Branch.choice bs).pattern fragments := by
  intro offset rest
  have hbs : bs.map (fun b => b.group.pattern) ≠ [] := by
    cases h with
    | nil => exact absurd rfl hne
    | cons _ _ => exact List.cons_ne_nil _ _
  unfold Branch.choice firstMatch?
  rw [best?_firstOf offset rest hbs, List.findSome?_map]
  clear hbs hne
  -- both go through the fragments in their order
  induction h with
  | nil => rfl
  | @cons f b fragments bs hf _ ih =>
    obtain ⟨hpattern, hpatterns⟩ := List.forall_mem_cons.mp hpatterns
    have hgroup := hf.best?_group hpattern offset rest
    rw [List.findSome?_cons, List.findSome?_cons, Function.comp_apply, hgroup]
    cases matchEnd? f.2 offset rest with
    | none => exact ih hpatterns
    | some stop => rfl

theorem mem_rules_of_firstMatch? {fragments : List (Rule × String)} {offset : Nat}
    {rest : List Char} {rule : Rule} {stop : Nat}
    (h : firstMatch? fragments offset rest = some (rule, stop)) :
    rule ∈ fragments.map (·.1) := by
  obtain ⟨f, hf, hfound⟩ := List.exists_of_findSome?_eq_some h
  obtain ⟨_, _, heq⟩ := Option.map_eq_some_iff.mp hfound
  cases heq
  exact List.mem_map_of_mem hf

/-! ### All offsets -/

section

variable {fragments : List (Rule × String)} {p : Pattern}

theorem repeatsEnd_occurrence_readingOf (rule : Rule) (start stop : Nat) (last : Option Nat) :
    ((readingOf rule start stop).occurrence start).repeatsEnd last =
      decide (stop = start ∧ last = some start) := rfl

/-- Where a pattern tries fragments, its occurrences are the hits of the trials. -/
theorem Tries.filterMap_occurrencesFrom (hp : Tries p fragments) (text : List Char)
    (offset goOn : Nat) (last : Option Nat) (rest : List Char) :
    (occurrencesFrom p.searchPlan offset goOn last rest).filterMap
        (hit? (fragments.map (·.1)) text) =
      trialsFrom fragments text offset goOn last rest := by
  have hbest := hp offset rest
  induction rest generalizing offset goOn last with
  | nil =>
    by_cases hskip : offset < goOn
    · simp [occurrencesFrom, trialsFrom, hskip]
    · rw [occurrencesFrom_of_le _ (Nat.le_of_not_lt hskip), occurrencesFrom_at_end, hbest]
      unfold trialsFrom
      rw [if_neg hskip]
      cases hfound : firstMatch? fragments offset [] with
      | none => rfl
      | some found =>
        obtain ⟨rule, stop⟩ := found
        have hhit := hit?_occurrence_readingOf (mem_rules_of_firstMatch? hfound) text offset stop
        simp only [Option.map_some, Option.filter_some, repeatsEnd_occurrence_readingOf]
        by_cases hrepeats : stop = offset ∧ last = some offset
        · simp [hrepeats]
        · simp [hrepeats, hhit]
  | cons x xs ih =>
    have hnext := hp (offset + x.utf8Size) xs
    by_cases hskip : offset < goOn
    · unfold occurrencesFrom trialsFrom
      simp only [if_pos hskip]
      exact ih _ _ _ hnext
    · rw [occurrencesFrom_of_le _ (Nat.le_of_not_lt hskip)]
      unfold trialsFrom
      simp only [if_neg hskip]
      cases hfound : firstMatch? fragments offset (x :: xs) with
      | none =>
        -- no fragment matches here: both pass over the character
        rw [hfound, Option.map_none] at hbest
        rw [occurrencesFrom_of_eq_none hbest]
        exact ih _ _ _ hnext
      | some found =>
        obtain ⟨rule, stop⟩ := found
        have hhit := hit?_occurrence_readingOf (mem_rules_of_firstMatch? hfound) text offset stop
        rw [hfound, Option.map_some] at hbest
        rw [occurrencesFrom_of_eq_some hbest, repeatsEnd_occurrence_readingOf]
        by_cases hrepeats : stop = offset ∧ last = some offset
        · -- nothing is matched just behind the last match: both pass over the character
          simp only [hrepeats, and_self, decide_true, if_true]
          exact ih _ _ _ hnext
        · simp only [hrepeats, decide_false, if_false, Bool.false_eq_true]
          rw [List.filterMap_cons_some hhit]
          exact congrArg _ (ih _ _ _ hnext)

/-- No occurrence of such a pattern is passed over. -/
theorem Tries.isSome_hit? (hp : Tries p fragments) {text : List Char} {o : Occurrence}
    (ho : o ∈ p.occurrences text) : (hit? (fragments.map (·.1)) text o).isSome = true := by
  obtain ⟨start, after, r, hr, rfl⟩ := exists_best?_of_mem_occurrencesFrom ho
  rw [hp, Option.map_eq_some_iff] at hr
  obtain ⟨⟨rule, stop⟩, hfound, rfl⟩ := hr
  rw [hit?_occurrence_readingOf (mem_rules_of_firstMatch? hfound)]
  rfl

end

theorem trialsFrom_nil (text : List Char) (offset goOn : Nat) (last : Option Nat)
    (rest : List Char) : trialsFrom [] text offset goOn last rest = [] := by
  induction rest generalizing offset goOn last with
  | nil => simp [trialsFrom, firstMatch?]
  | cons c cs ih => simp [trialsFrom, firstMatch?, ih]

/-- A scanner of the joined pattern finds the hits of the trials. -/
theorem scan_eq_trials {fragments : List (Rule × String)} {bs : List Branch}
    (h : List.Forall₂ Spells fragments bs)
    (hpatterns : ∀ f ∈ fragments, ∃ p, ofString f.2 = .ok p) {s : Scanner}
    (hpattern : s.pattern = (Branch.choice bs).pattern) (hrules : s.rules = fragments.map (·.1))
    (text : String) : s.scan text = trials fragments text.toList := by
  unfold scan trials
  rw [hpattern, hrules]
  by_cases hne : fragments = []
  · -- without fragments the pattern is found everywhere, but no rule has a hit
    subst hne
    rw [trialsFrom_nil]
    exact List.filterMap_eq_nil_iff.mpr fun _ _ => rfl
  · exact (tries_choice h hpatterns hne).filterMap_occurrencesFrom _ 0 0 none _

/-! ### Limits -/

theorem outcome_ofFragments_of_error {room : Room} {fragments : List (Rule × String)}
    {fault : Pattern.Fault} (h : compile room (join fragments) = .error fault) :
    (ofFragments room fragments).outcome = .error (.pattern fault) := by
  unfold ofFragments
  simp only [Journal.outcome_bind, Journal.outcome_ofExcept, h]
  rfl

/-- **Main theorem**: fragments of different rules that are patterns by themselves and name no
    groups make a scanner, unless the choice between their groups is too deep or there is no room
    for it. The scanner finds the hits of trying the fragments in order, and if there are any
    fragments, every occurrence of its pattern is a hit. -/
theorem ofFragments_tries_in_order (room : Room) (fragments : List (Rule × String))
    (hrules : (fragments.map (·.1)).Nodup)
    (hpatterns : ∀ f ∈ fragments, ∃ p, ofString f.2 = .ok p)
    (hnames : ∀ f ∈ fragments, groupNames f.2 = .ok []) :
    ∃ whole, joined fragments = .ok whole ∧
      (whole.depth ≤ maxDepth → room.fits (join fragments) = true →
        ∃ s, (ofFragments room fragments).outcome = .ok s ∧ ∀ text : String,
          s.scan text = trials fragments text.toList ∧
          (fragments ≠ [] → ∀ o ∈ s.pattern.occurrences text.toList,
            (hit? s.rules text.toList o).isSome = true)) ∧
      (maxDepth < whole.depth →
        (ofFragments room fragments).outcome = .error (.pattern .tooDeep)) ∧
      (whole.depth ≤ maxDepth → room.fits (join fragments) = false →
        (ofFragments room fragments).outcome = .error (.pattern .tooLarge)) := by
  obtain ⟨bs, hbs⟩ := exists_branches hpatterns hnames
  have hchecked : ofString (join fragments) = (Branch.choice bs).checked := by
    rw [ofString_eq, part_join hbs hrules]
    rfl
  have hspells : (Branch.choice bs).depth ≤ maxDepth →
      ofString (join fragments) = .ok (Branch.choice bs).pattern := by
    intro hdepth
    rw [hchecked]
    exact if_neg (Nat.not_lt.mpr hdepth)
  refine ⟨Branch.choice bs, joined_of_spells hbs, ?_, ?_, ?_⟩
  · intro hdepth hfits
    have hcompile := (compile_of_fits hfits).trans (hspells hdepth)
    refine ⟨_, Grammar.Standard.outcome_ofFragments hcompile, ?_⟩
    intro text
    constructor
    · exact scan_eq_trials hbs hpatterns rfl rfl text
    · intro hne o ho
      exact (tries_choice hbs hpatterns hne).isSome_hit? ho
  · intro hdepth
    apply outcome_ofFragments_of_error
    apply compile_of_error
    rw [hchecked]
    exact if_pos hdepth
  · intro hdepth hfits
    exact outcome_ofFragments_of_error (compile_of_not_fits (hspells hdepth) hfits)

theorem exists_ofString {text : String} (h : (ofString text).toOption.isSome = true) :
    ∃ p, ofString text = .ok p := by
  cases hread : ofString text with
  | error fault =>
    rw [hread] at h
    cases h
  | ok p => exact ⟨p, rfl⟩

/-- Fragments with bars of their own, and one that matches nothing but the empty text. -/
def tagFragments : List (Rule × String) :=
  [(.name, "ab|a"), (.id, "#(?:a|b)*"), (.className, "")]

theorem ofFragments_tries_in_order_tags :
    (tagFragments.map (·.1)).Nodup ∧
      (∀ f ∈ tagFragments, ∃ p, ofString f.2 = .ok p) ∧
      (∀ f ∈ tagFragments, groupNames f.2 = .ok []) ∧
      ∃ s, (ofFragments .unlimited tagFragments).outcome = .ok s ∧
        s.scan "xab#bb#" =
          [⟨"", 0, 0, .className⟩, ⟨"ab", 1, 3, .name⟩, ⟨"#bb", 3, 6, .id⟩, ⟨"#", 6, 7, .id⟩] := by
  have hrules : (tagFragments.map (·.1)).Nodup := by decide
  have hread : ∀ f ∈ tagFragments, (ofString f.2).toOption.isSome = true := by decide +kernel
  have hpatterns : ∀ f ∈ tagFragments, ∃ p, ofString f.2 = .ok p :=
    fun f hf => exists_ofString (hread f hf)
  have hnames : ∀ f ∈ tagFragments, groupNames f.2 = .ok [] := by decide +kernel
  obtain ⟨whole, hwhole, hmakes, _, _⟩ :=
    ofFragments_tries_in_order .unlimited tagFragments hrules hpatterns hnames
  have hdepth : ((joined tagFragments).toOption.all fun whole => whole.depth ≤ maxDepth) =
      true := by decide +kernel
  rw [hwhole] at hdepth
  obtain ⟨s, hs, hscan⟩ := hmakes (of_decide_eq_true hdepth) rfl
  refine ⟨hrules, hpatterns, hnames, s, hs, ?_⟩
  rw [(hscan _).1]
  decide +kernel

/-- A text that is as deep as a pattern may be. -/
def deepText : List Char := List.replicate 250 '(' ++ 'a' :: List.replicate 250 ')'

/-- A fragment that is too deep only in the group of its rule. -/
def deepFragments : List (Rule × String) := [(.id, String.ofList deepText)]

/-- Fragments for which there is room one by one, but not together. -/
def largeFragments : List (Rule × String) :=
  [(.id, "a\x7b200000\x7d"), (.name, "b\x7b200000\x7d")]

/-- Room for everything but the large fragments together. -/
def narrowRoom : Room := ⟨fun source => source ≠ join largeFragments⟩

theorem ofString_join_deepFragments : ofString (join deepFragments) = .error .tooDeep := by
  have hjoin : join deepFragments = wrap (.id, String.ofList deepText) := by
    simp [join, deepFragments]
  unfold ofString
  rw [hjoin, toList_wrap, String.toList_ofList]
  decide +kernel

theorem exists_compile_narrowRoom {fragment : Rule × String} (h : fragment ∈ largeFragments) :
    ∃ p, compile narrowRoom fragment.2 = .ok p := by
  have hfits : ∀ f ∈ largeFragments, narrowRoom.fits f.2 = true := by decide +kernel
  have hread : ∀ f ∈ largeFragments, (ofString f.2).toOption.isSome = true := by decide +kernel
  obtain ⟨p, hp⟩ := exists_ofString (hread fragment h)
  exact ⟨p, (compile_of_fits (hfits fragment h)).trans hp⟩

/-- Fragments that compile by themselves may be too deep in their groups, or find no room
    together. -/
theorem ofFragments_refuses_deep_and_large :
    ((deepFragments.map (·.1)).Nodup ∧
      (∀ f ∈ deepFragments, ∃ p, compile .unlimited f.2 = .ok p) ∧
      (∀ f ∈ deepFragments, groupNames f.2 = .ok []) ∧
      (ofFragments .unlimited deepFragments).outcome = .error (.pattern .tooDeep)) ∧
    ((largeFragments.map (·.1)).Nodup ∧
      (∀ f ∈ largeFragments, ∃ p, compile narrowRoom f.2 = .ok p) ∧
      (∀ f ∈ largeFragments, groupNames f.2 = .ok []) ∧
      (ofFragments narrowRoom largeFragments).outcome = .error (.pattern .tooLarge)) := by
  constructor
  · refine ⟨List.nodup_singleton _, ?_, ?_,
      outcome_ofFragments_of_error (compile_of_error _ ofString_join_deepFragments)⟩
    · intro f hf
      obtain rfl := List.mem_singleton.mp hf
      rw [compile_of_fits rfl]
      apply exists_ofString
      unfold ofString
      rw [String.toList_ofList]
      decide +kernel
    · intro f hf
      obtain rfl := List.mem_singleton.mp hf
      unfold groupNames
      rw [String.toList_ofList]
      decide +kernel
  · refine ⟨by decide +kernel, fun f hf => exists_compile_narrowRoom hf, by decide +kernel, ?_⟩
    have hspells : (ofString (join largeFragments)).toOption.isSome = true := by decide +kernel
    obtain ⟨p, hp⟩ := exists_ofString hspells
    exact outcome_ofFragments_of_error (compile_of_not_fits hp (by simp [narrowRoom]))

end TreeQuery.Scanner
