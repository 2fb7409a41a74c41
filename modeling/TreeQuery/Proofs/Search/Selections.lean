import Mathlib.Data.List.Dedup
import TreeQuery.Proofs.Search.Chained
import TreeQuery.Proofs.Search.Closest

/-! # Selections — chains of searches, each below the first find of the last

    A selection can be searched further, and what is found there can be searched
    further again. Every search starts below the first node of the selection before
    it, while the ancestors that satisfy the constraints are looked for on the whole
    way up, beyond that node. Here such a chain is followed over any number of steps:

    * **Levels**: how deep a node lies, and how many levels there are below it. A way
      down has no more nodes than there are levels.
    * **One step**: what is found below a node is what is found below the document
      root, as far as it hangs below that node.
    * **Chains**: selections made one after another follow each other, the first one
      follows the root. Whatever a selection has found hangs below the first node of
      every earlier one, so each step goes down by a level at least.

    Main statement: `selections_narrow_down`
-/

namespace TreeQuery

namespace Document

variable {d : Document}

/-! ### Levels -/

/-- How deep a node lies: the number of its ancestors. -/
def depth (d : Document) (n : NodeId) : Nat := (d.ancestors n).length

/-- The number of levels below a node: of the different depths at which its descendants lie. -/
def levelsBelow (d : Document) (n : NodeId) : Nat := ((d.descendants n).map d.depth).dedup.length

/-- A node lies deeper than every node above it. -/
theorem IsAbove.depth_lt (h : WellFormed d) {a n : NodeId} (ha : d.IsAbove a n) :
    d.depth a < d.depth n := by
  obtain ⟨nearer, hnearer⟩ := ha.exists_ancestors_eq h
  simp only [depth, hnearer, List.length_append, List.length_cons]
  omega

/-- A way down from a node has no more nodes than there are levels below the node. -/
theorem length_le_levelsBelow (h : WellFormed d) {n : NodeId} {way : List NodeId}
    (hway : (n :: way).IsChain d.IsAbove) : way.length ≤ d.levelsBelow n := by
  obtain ⟨hbelow, hdown⟩ := List.pairwise_cons.mp hway.pairwise
  -- the nodes of the way lie at different depths, which are among those of the descendants
  have hnodup : (way.map d.depth).Nodup := by
    rw [List.Nodup, List.pairwise_map]
    exact hdown.imp fun ha => Nat.ne_of_lt (ha.depth_lt h)
  have hsub : way.map d.depth ⊆ ((d.descendants n).map d.depth).dedup := by
    intro k hk
    obtain ⟨m, hm, rfl⟩ := List.mem_map.mp hk
    rw [List.mem_dedup]
    exact List.mem_map_of_mem ((mem_descendants_iff h).mpr (hbelow m hm))
  have hlength := (List.subperm_of_subset hnodup hsub).length_le
  rwa [List.length_map] at hlength

/-- Nothing hangs below a number that is no node. -/
theorem descendants_of_size_le (h : WellFormed d) {n : NodeId} (hn : d.size ≤ n) :
    d.descendants n = [] := by
  rw [List.eq_nil_iff_forall_not_mem]
  intro m hm
  have habove := (mem_descendants_iff h).mp hm
  have hlt : n < d.size := Nat.lt_trans (habove.lt h) (habove.contains h)
  exact absurd hlt (Nat.not_lt_of_le hn)

/-- What hangs below a node is listed in the same order among the nodes of the whole document. -/
theorem filter_descendants_root (h : WellFormed d) (n : NodeId) :
    (d.descendants root).filter (· ∈ d.descendants n) = d.descendants n := by
  by_cases hn : n < d.size
  · by_cases hroot : n = root
    · simp [hroot]
    · exact filter_descendants h (isAbove_root h hn hroot)
  · simp [descendants_of_size_le h (Nat.le_of_not_lt hn)]

end Document

/-! ### One step -/

namespace Query

variable {d : Document}

/-- What tokens find below a node is what they find below the document root, restricted to what
    hangs below the node. -/
theorem answersTo_eq_filter_root (h : d.WellFormed) (hids : d.UniqueIds) (tokens : List Token)
    (f : NodeId) :
    answersTo tokens d (some f) =
      (answersTo tokens d (some Document.root)).filter (· ∈ d.descendants f) := by
  rw [answersTo_eq_filter h hids, answersTo_eq_filter h hids,
    ← Document.filter_descendants_root h f, List.filter_filter, List.filter_filter,
    Document.filter_descendants_root h f]
  simp only [Bool.and_comm]

end Query

namespace Selection

variable {d : Document}

/-- Whatever the lower selection has found hangs below the first node of the upper one. -/
def HangsBelow (d : Document) (upper lower : Selection) : Prop :=
  ∀ m ∈ lower.nodes, ∃ f, upper.first? = some f ∧ d.IsAbove f m

theorem mem_of_first? {s : Selection} {f : NodeId} (hf : s.first? = some f) : f ∈ s.nodes :=
  List.mem_of_head? hf

theorem HangsBelow.trans {s t u : Selection} (hst : HangsBelow d s t) (htu : HangsBelow d t u) :
    HangsBelow d s u := by
  intro m hm
  obtain ⟨g, hg, hgm⟩ := htu m hm
  obtain ⟨f, hf, hfg⟩ := hst g (mem_of_first? hg)
  exact ⟨f, hf, hfg.trans hgm⟩

instance : Trans (HangsBelow d) (HangsBelow d) (HangsBelow d) := ⟨HangsBelow.trans⟩

/-- Below nothing there is nothing. -/
theorem HangsBelow.eq_nil {upper lower : Selection} (h : HangsBelow d upper lower)
    (hupper : upper.nodes = []) : lower.nodes = [] := by
  rw [List.eq_nil_iff_forall_not_mem]
  intro m hm
  obtain ⟨f, hf, -⟩ := h m hm
  have hmem := mem_of_first? hf
  simp [hupper] at hmem

/-- The root of a search, as a selection. -/
def ofRoot (root : Option NodeId) : Selection := ⟨"", root.toList⟩

@[simp] theorem first?_ofRoot (root : Option NodeId) : (ofRoot root).first? = root := by
  cases root <;> rfl

end Selection

namespace Engine

variable {e : Engine} {d : Document} {root : Option NodeId}

/-- What a selection that has been made tells: its selector has been read, and it has the nodes that
    answer the tokens. -/
theorem exists_tokens_of_select {selector : String} {s : Selection}
    (h : (e.select d selector root).outcome = .ok s) :
    ∃ tokens, (e.tokenize selector).outcome = .ok tokens ∧
      s = ⟨selector, Query.answersTo tokens d root⟩ := by
  obtain ⟨nodes, hnodes, -⟩ := Journal.outcome_bind_eq_ok_iff.mp h
  obtain ⟨tokens, htokens, -⟩ := Journal.outcome_bind_eq_ok_iff.mp hnodes
  rw [outcome_select htokens] at h
  exact ⟨tokens, htokens, (Except.ok.inj h).symm⟩

/-- One selection follows another: it is what its selector finds below the first node of the
    other. -/
def Follows (e : Engine) (d : Document) (last next : Selection) : Prop :=
  (e.find d last next.selector).outcome = .ok next

theorem Follows.exists_tokens {last next : Selection} (h : e.Follows d last next) :
    ∃ tokens, (e.tokenize next.selector).outcome = .ok tokens ∧
      next.nodes = Query.answersTo tokens d last.first? := by
  obtain ⟨tokens, htokens, hnext⟩ := exists_tokens_of_select h
  exact ⟨tokens, htokens, congrArg Selection.nodes hnext⟩

/-- **Step**: a selection hangs below the one that it follows. -/
theorem Follows.hangsBelow (hd : d.WellFormed) (hids : d.UniqueIds) {last next : Selection}
    (h : e.Follows d last next) : Selection.HangsBelow d last next := by
  intro m hm
  obtain ⟨tokens, -, hnodes⟩ := h.exists_tokens
  rw [hnodes] at hm
  cases hf : last.first? with
  | none => simp [hf, Query.answersTo_none] at hm
  | some f =>
    rw [hf, Query.mem_answersTo_iff hd hids] at hm
    exact ⟨f, rfl, hm.1⟩

/-! ### Chains -/

/-- The first of some selectors searches below the last selection in force, or below the root where
    there is none, and if it makes a selection, the others go on from there. -/
theorem map_outcome_selections_cons {last : Option Selection} {selector : String} {s : Selection}
    (h : (e.select d selector (last.getD (.ofRoot root)).first?).outcome = .ok s)
    (selectors : List String) :
    (e.selections d root last (selector :: selectors)).map Journal.outcome =
      .ok s :: (e.selections d root (some s) selectors).map Journal.outcome := by
  cases last with
  | none =>
    have hfirst : (e.select d selector root).outcome = .ok s := by simpa using h
    simp [selections, hfirst]
  | some s' =>
    have hfirst : (e.find d s' selector).outcome = .ok s := h
    simp [selections, hfirst]

/-- Selections made one after another follow each other, and the first of them follows the last
    selection in force, or the root where there is none. -/
theorem isChain_of_selections {last : Option Selection} {selectors : List String}
    {steps : List Selection}
    (h : (e.selections d root last selectors).map Journal.outcome = steps.map .ok) :
    (last.getD (.ofRoot root) :: steps).IsChain (e.Follows d) ∧
      steps.map Selection.selector = selectors := by
  induction selectors generalizing last steps with
  | nil =>
    obtain rfl : steps = [] := by simpa [selections] using h
    exact ⟨.singleton _, rfl⟩
  | cons selector selectors ih =>
    cases steps with
    | nil => cases h
    | cons s steps =>
      have hselect : (e.select d selector (last.getD (.ofRoot root)).first?).outcome = .ok s := by
        obtain ⟨hfirst, -⟩ := List.cons.inj h
        cases last with
        | none => simpa using hfirst
        | some s' => exact hfirst
      rw [map_outcome_selections_cons hselect] at h
      obtain ⟨hchain, hselectors⟩ := ih (List.cons.inj h).2
      obtain ⟨tokens, -, rfl⟩ := exists_tokens_of_select hselect
      exact ⟨.cons_cons hselect hchain, congrArg _ hselectors⟩

/-- **Run**: whatever the last selection of a chain has found lies at the end of a way down with a
    node for each selection. -/
theorem exists_way_of_isChain {s : Selection} {steps : List Selection}
    (h : (s :: steps).IsChain (Selection.HangsBelow d)) {last : Selection}
    (hlast : (s :: steps).getLast? = some last) (hfound : last.nodes ≠ []) :
    ∃ f way, s.first? = some f ∧ way.length = steps.length ∧ (f :: way).IsChain d.IsAbove := by
  induction steps generalizing s with
  | nil =>
    obtain rfl : s = last := by simpa using hlast
    obtain ⟨f, rest, hnodes⟩ := List.exists_cons_of_ne_nil hfound
    refine ⟨f, [], ?_, rfl, .singleton f⟩
    rw [Selection.first?, hnodes, List.head?_cons]
  | cons next steps ih =>
    obtain ⟨hnext, hrest⟩ := List.isChain_cons_cons.mp h
    rw [List.getLast?_cons_cons] at hlast
    obtain ⟨g, way, hg, hlength, hway⟩ := ih hrest hlast
    obtain ⟨f, hf, hfg⟩ := hnext g (Selection.mem_of_first? hg)
    exact ⟨f, g :: way, hf, congrArg (· + 1) hlength, .cons_cons hfg hway⟩

/-- **Selections narrow down.** Take any run of selectors on a reachable document with unique ids
    that makes a selection at every step, the first one below a root, each further one below the
    first node of the selection before it. Every further step finds what a search from the document
    root finds, in document order, restricted to what hangs below the first node of the selection
    before it. All that a step has found hangs below the first node of every earlier step, and below
    the root; after an empty selection there are only empty ones; and if there are more steps than
    levels below the root, the last one is empty. -/
theorem selections_narrow_down (hd : d.Reachable) (hids : d.UniqueIds) (e : Engine)
    (root : Option NodeId) {selectors : List String} {steps : List Selection}
    (h : (e.selections d root none selectors).map Journal.outcome = steps.map .ok) :
    steps.map Selection.selector = selectors ∧
    (∀ first, steps.head? = some first →
      (e.search d first.selector root).outcome = .ok first.nodes) ∧
    (steps.IsChain fun last next => ∃ found,
      (e.search d next.selector (some Document.root)).outcome = .ok found ∧
      found.Sublist (d.descendants Document.root) ∧
      (∀ f, last.first? = some f → next.nodes = found.filter (· ∈ d.descendants f)) ∧
      (last.first? = none → next.nodes = [])) ∧
    (steps.Pairwise fun earlier later =>
      ∀ m ∈ later.nodes, ∃ f, earlier.first? = some f ∧ d.IsAbove f m) ∧
    (∀ step ∈ steps, ∀ m ∈ step.nodes, ∃ r, root = some r ∧ d.IsAbove r m) ∧
    (steps.Pairwise fun earlier later => earlier.nodes = [] → later.nodes = []) ∧
    ((root.elim 0 d.levelsBelow) < steps.length →
      ∃ last, steps.getLast? = some last ∧ last.nodes = []) := by
  have hwell := hd.wellFormed
  obtain ⟨hfollows, hselectors⟩ := isChain_of_selections h
  rw [Option.getD_none] at hfollows
  have hchain : (Selection.ofRoot root :: steps).IsChain (Selection.HangsBelow d) :=
    hfollows.imp fun _ _ hnext => hnext.hangsBelow hwell hids
  obtain ⟨hroot, hbelow⟩ := List.pairwise_cons.mp hchain.pairwise
  refine ⟨hselectors, ?_, ?_, hbelow, ?_, ?_, ?_⟩
  · intro first hfirst
    obtain ⟨rest, rfl⟩ := List.head?_eq_some_iff.mp hfirst
    obtain ⟨hselect, -⟩ := List.isChain_cons_cons.mp hfollows
    obtain ⟨tokens, htokens, hnodes⟩ := hselect.exists_tokens
    rw [outcome_search htokens, hnodes, Selection.first?_ofRoot]
  · -- the root is left out, since it has been found by nothing
    refine hfollows.tail.imp fun last next hnext => ?_
    obtain ⟨tokens, htokens, hnodes⟩ := hnext.exists_tokens
    refine ⟨_, outcome_search htokens d _, ?_, ?_, ?_⟩
    · rw [Query.answersTo_eq_filter hwell hids]
      exact List.filter_sublist
    · intro f hf
      rw [hnodes, hf, Query.answersTo_eq_filter_root hwell hids]
    · intro hnone
      rw [hnodes, hnone, Query.answersTo_none]
  · intro step hstep m hm
    obtain ⟨r, hr, habove⟩ := hroot step hstep m hm
    exact ⟨r, by simpa using hr, habove⟩
  · exact hbelow.imp fun hlater => hlater.eq_nil
  · intro hlevels
    have hne : steps ≠ [] := by
      rintro rfl
      simp at hlevels
    refine ⟨steps.getLast hne, List.getLast?_eq_some_getLast hne, ?_⟩
    -- what it had found would lie at the end of a way down that is longer than there are levels
    by_contra hfound
    have hlast : (Selection.ofRoot root :: steps).getLast? = some (steps.getLast hne) := by
      rw [List.getLast?_cons, List.getLast?_eq_some_getLast hne, Option.getD_some]
    obtain ⟨r, way, hr, hlength, hway⟩ := exists_way_of_isChain hchain hlast hfound
    rw [Selection.first?_ofRoot] at hr
    have hle := Document.length_le_levelsBelow hwell hway
    simp only [hr, Option.elim_some] at hlevels
    omega

/-- Four selectors below the body of a page that has three levels below its body. The body stands
    above all that the third search starts from, and satisfies its constraint. -/
theorem selections_nestedSections :
    nestedSections.Reachable ∧ nestedSections.UniqueIds ∧
    ∃ (e : Engine) (steps : List Selection) (found : List NodeId),
      steps = [⟨"section", [2, 4]⟩, ⟨"section", [4]⟩, ⟨"body h2", [5]⟩, ⟨"h2", []⟩] ∧
      (e.selections nestedSections (some 1) none
        ["section", "section", "body h2", "h2"]).map Journal.outcome = steps.map .ok ∧
      (e.search nestedSections "body h2" (some 0)).outcome = .ok found ∧
      [5] = found.filter (· ∈ nestedSections.descendants 4) ∧ nestedSections.IsAbove 2 5 ∧
      nestedSections.levelsBelow 1 < steps.length ∧
      ∃ last, steps.getLast? = some last ∧ last.nodes = [] := by
  have hd : nestedSections.Reachable := .ofSpec _
  have hids : nestedSections.UniqueIds := by decide
  obtain ⟨e, he⟩ := exists_standard .strict
  have hsection : (e.tokenize "section").outcome = .ok [⟨"section", .name⟩] := by
    refine outcome_tokenize_standard he (Journal.eq_ok_of_toOption ?_)
    decide +kernel
  have hbody : (e.tokenize "body h2").outcome = .ok [⟨"body", .name⟩, ⟨"h2", .name⟩] := by
    refine outcome_tokenize_standard he (Journal.eq_ok_of_toOption ?_)
    decide +kernel
  have hheading : (e.tokenize "h2").outcome = .ok [⟨"h2", .name⟩] := by
    refine outcome_tokenize_standard he (Journal.eq_ok_of_toOption ?_)
    decide +kernel
  have hmade : ∀ (nodes : List NodeId) {selector : String} {tokens : List Token}
      {root : Option NodeId}, (e.tokenize selector).outcome = .ok tokens →
      Query.answersTo tokens nestedSections root = nodes →
      (e.select nestedSections selector root).outcome = .ok ⟨selector, nodes⟩ := by
    rintro _ selector tokens root htokens rfl
    exact outcome_select htokens nestedSections root
  have hrun : (e.selections nestedSections (some 1) none
      ["section", "section", "body h2", "h2"]).map Journal.outcome =
      [⟨"section", [2, 4]⟩, ⟨"section", [4]⟩, ⟨"body h2", [5]⟩, ⟨"h2", []⟩].map .ok := by
    rw [map_outcome_selections_cons (hmade [2, 4] hsection (by decide +kernel)),
      map_outcome_selections_cons (hmade [4] hsection (by decide +kernel)),
      map_outcome_selections_cons (hmade [5] hbody (by decide +kernel)),
      map_outcome_selections_cons (hmade [] hheading (by decide +kernel))]
    rfl
  have hlevels : nestedSections.levelsBelow 1 < 4 := by decide +kernel
  obtain ⟨-, -, hsteps, hbelow, -, -, hends⟩ := selections_narrow_down hd hids e (some 1) hrun
  obtain ⟨found, hfound, -, hthird, -⟩ :=
    (List.isChain_cons_cons.mp (List.isChain_cons_cons.mp hsteps).2).1
  obtain ⟨f, hf, habove⟩ :=
    (List.pairwise_cons.mp hbelow).1 ⟨"body h2", [5]⟩ (by simp) 5 (by simp)
  obtain rfl : 2 = f := Option.some.inj hf
  exact ⟨hd, hids, e, _, found, rfl, hrun, hfound, hthird 4 rfl, habove, hlevels, hends hlevels⟩

end Engine

end TreeQuery
