import TreeQuery.Proofs.Document.Tree
import TreeQuery.Proofs.Text.Canonical

/-! # Paths — the way down to a node in words

    The path of a node is made by a loop that goes up from the node and collects a
    part for every node it passes, until it comes to the document root. Nothing in
    the loop bounds its rounds. Read from the top, the parts follow the tree:

    * **Steps**: what has been collected and what is still to come make up the same
      parts before and after every step, and every step goes to a smaller number.
      So the loop ends, and it ends with the parts of the path.
    * **Recursion**: the path of a node is that of its parent with one more part.
    * **Parts**: what the part of a node tells about it.
-/

namespace TreeQuery.Document

variable {d : Document}

/-! ### Steps -/

/-- Where the loop stands: the node that it has come to, unless it has left the document, and the
    parts that it has collected, the lowest first. -/
structure Ascent where
  current : Option NodeId
  parts : List String
deriving DecidableEq

/-- The loop goes over the nodes on the way up, the document root left out. -/
theorem dropLast_lineage_of_isParent (h : WellFormed d) {p n : NodeId} (hp : d.IsParent p n) :
    (d.lineage n).dropLast = n :: (d.lineage p).dropLast := by
  rw [lineage_eq d n, ancestors_of_isParent h hp, ← lineage_eq, lineage_eq d p,
    List.dropLast_cons_cons]

theorem dropLast_lineage_root (h : WellFormed d) : (d.lineage root).dropLast = [] := by
  have hnone : d.parent? root = none := (parent?_eq_none_iff h h.size_pos).mpr rfl
  rw [lineage_eq, ancestors_of_parent?_eq_none hnone]
  rfl

/-- Every node but the document root has a parent, which has a smaller number. -/
theorem exists_isParent (h : WellFormed d) {n : NodeId} (hn : n < d.size) (hne : n ≠ root) :
    ∃ p < n, d.IsParent p n := by
  cases hp : d.parent? n with
  | none => exact absurd ((parent?_eq_none_iff h hn).mp hp) hne
  | some p => exact ⟨p, IsParent.lt h hp, hp⟩

namespace Ascent

variable {a b : Ascent} {parts : List String}

/-- The way up from a node, at its start. -/
def start (n : NodeId) : Ascent := ⟨some n, []⟩

/-- One step collects the part of a node and goes to its parent. At the document root, and outside
    of the document, there is no step to take. -/
def step? (d : Document) (a : Ascent) : Option Ascent :=
  (a.current.filter fun n => !d.isRoot n).map fun n => ⟨d.parent? n, a.parts ++ [d.segment n]⟩

/-- One way up goes on to the other in some number of steps. -/
def Reaches (d : Document) : Ascent → Ascent → Prop :=
  Relation.ReflTransGen fun a b => a.step? d = some b

/-- The parts that have been collected, from the top. -/
def text (a : Ascent) : String := " > ".intercalate a.parts.reverse

/-- What has been collected and what is still to come make up these parts. -/
def LeadsTo (d : Document) (a : Ascent) (parts : List String) : Prop :=
  ∃ n < d.size, a.current = some n ∧ parts = a.parts ++ (d.lineage n).dropLast.map d.segment

theorem step?_eq_some_iff {n : NodeId} (hn : a.current = some n) :
    a.step? d = some b ↔ ¬d.isRoot n = true ∧ b = ⟨d.parent? n, a.parts ++ [d.segment n]⟩ := by
  unfold step?
  rw [hn, Option.filter_some]
  by_cases hroot : d.isRoot n = true
  · simp [hroot]
  · simp [hroot, eq_comm]

/-- **Step**: the parts that a way up leads to do not change. -/
theorem LeadsTo.step (h : WellFormed d) (ha : a.LeadsTo d parts) (hstep : a.step? d = some b) :
    b.LeadsTo d parts := by
  obtain ⟨n, hn, hcurrent, rfl⟩ := ha
  obtain ⟨hroot, rfl⟩ := (step?_eq_some_iff hcurrent).mp hstep
  have hne : n ≠ root := fun heq => hroot ((isRoot_iff h hn).mpr heq)
  obtain ⟨p, hlt, hp⟩ := exists_isParent h hn hne
  refine ⟨p, Nat.lt_trans hlt hn, hp, ?_⟩
  rw [dropLast_lineage_of_isParent h hp]
  simp

/-- **Run**: nor do they change in any number of steps. -/
theorem LeadsTo.reaches (h : WellFormed d) (ha : a.LeadsTo d parts) (hreaches : Reaches d a b) :
    b.LeadsTo d parts := by
  induction hreaches with
  | refl => exact ha
  | tail _ hstep ih => exact ih.step h hstep

/-- A way up ends, and then it has collected all parts. -/
theorem LeadsTo.exists_end (h : WellFormed d) (ha : a.LeadsTo d parts) :
    ∃ b, Reaches d a b ∧ b.step? d = none ∧ b.parts = parts := by
  obtain ⟨n, hn, hcurrent, hparts⟩ := ha
  -- by induction on the number of the node: that of its parent is smaller
  induction n using Nat.strongRecOn generalizing a with
  | ind n ih =>
    by_cases hroot : d.isRoot n = true
    · refine ⟨a, .refl, ?_, ?_⟩
      · unfold step?
        simp [hcurrent, hroot]
      · rw [hparts, (isRoot_iff h hn).mp hroot, dropLast_lineage_root h]
        simp
    · have hne : n ≠ root := fun heq => hroot ((isRoot_iff h hn).mpr heq)
      obtain ⟨p, hlt, hp⟩ := exists_isParent h hn hne
      let next : Ascent := ⟨d.parent? n, a.parts ++ [d.segment n]⟩
      have hstep : a.step? d = some next := (step?_eq_some_iff hcurrent).mpr ⟨hroot, rfl⟩
      have hnext : parts = next.parts ++ (d.lineage p).dropLast.map d.segment := by
        rw [hparts, dropLast_lineage_of_isParent h hp]
        simp [next]
      obtain ⟨b, hb, hend, hcollected⟩ := ih p hlt (Nat.lt_trans hlt hn) (a := next) hp hnext
      exact ⟨b, .head hstep hb, hend, hcollected⟩

theorem leadsTo_start {n : NodeId} (hn : n < d.size) :
    (start n).LeadsTo d ((d.lineage n).dropLast.map d.segment) :=
  ⟨n, hn, rfl, rfl⟩

end Ascent

/-! ### Recursion -/

/-- One more text is joined behind a separator. -/
theorem intercalate_concat (separator : String) {texts : List String} (hne : texts ≠ [])
    (text : String) : separator.intercalate (texts ++ [text]) =
      separator.intercalate texts ++ separator ++ text := by
  induction texts with
  | nil => exact absurd rfl hne
  | cons t texts ih =>
    cases texts with
    | nil => simp
    | cons u texts =>
      have hrest := ih (List.cons_ne_nil u texts)
      simp only [List.cons_append, String.intercalate_cons_cons] at hrest ⊢
      rw [hrest]
      simp only [String.append_assoc]

theorem path_root (h : WellFormed d) : d.path root = rootTag := by
  have hroot : d.isRoot root = true := (isRoot_iff h h.size_pos).mpr rfl
  unfold path
  rw [if_pos hroot]

/-- The path of a node that hangs below the document root is its part. -/
theorem path_of_isParent_root (h : WellFormed d) {n : NodeId} (hp : d.IsParent root n) :
    d.path n = d.segment n := by
  have hne : n ≠ root := Nat.ne_of_gt (hp.lt h)
  rw [path_eq h (hp.contains h) hne, dropLast_lineage_of_isParent h hp, dropLast_lineage_root h]
  simp

/-- The path of any other node is that of its parent and its own part. -/
theorem path_of_isParent (h : WellFormed d) {p n : NodeId} (hp : d.IsParent p n)
    (hne : p ≠ root) : d.path n = d.path p ++ " > " ++ d.segment n := by
  have hlt : p < n := hp.lt h
  have hn : n < d.size := hp.contains h
  have hp' : p < d.size := Nat.lt_trans hlt hn
  have hsome : (d.lineage p).dropLast.reverse.map d.segment ≠ [] := by
    obtain ⟨q, -, hq⟩ := exists_isParent h hp' hne
    rw [dropLast_lineage_of_isParent h hq]
    simp
  rw [path_eq h hn (Nat.ne_zero_of_lt hlt), path_eq h hp' hne,
    dropLast_lineage_of_isParent h hp, List.reverse_cons, List.map_append]
  exact intercalate_concat " > " hsome (d.segment n)

/-- The path of a node goes on from the path of whatever stands above it. -/
theorem exists_path_eq_append (h : WellFormed d) {a n : NodeId} (ha : d.IsAbove a n)
    (hne : a ≠ root) : ∃ rest, d.path n = d.path a ++ " > " ++ rest := by
  induction ha with
  | single hp => exact ⟨d.segment _, path_of_isParent h hp hne⟩
  | @tail m n ham hp ih =>
    obtain ⟨rest, hrest⟩ := ih
    have hlt : a < m := IsAbove.lt h ham
    have hm : m ≠ root := Nat.ne_zero_of_lt hlt
    refine ⟨rest ++ " > " ++ d.segment n, ?_⟩
    rw [path_of_isParent h hp hm, hrest]
    simp only [String.append_assoc]

/-! ### Parts -/

/-- The part of a node is its tag, its id behind a `#`, and its classes, each behind a dot. The
    classes are the runs of its class list, in order. -/
theorem segment_eq {n : NodeId} {e : Element} (he : d.element? n = some e)
    {runs : List (List Char)} (hruns : Text.HasRuns e.classList.toList runs) :
    d.segment n = e.tag ++ (e.id.map ("#" ++ ·)).getD "" ++
      String.join (runs.map fun token => "." ++ String.ofList token) := by
  obtain rfl := hruns.words_eq
  unfold segment Element.segment Element.classes wordsOf
  rw [he, Option.map_some, Option.getD_some, List.map_map]
  cases e.id <;> rfl

/-- **Main theorem**: on every reachable document the loop that makes the path of a node ends,
    whatever step it has got to, with the parts of the path. The path of the document root is its
    tag. The path of a node that hangs below the document root is the part of the node, and the
    path of any other node is the path of its parent with its own part behind it. So the path of a
    node starts with the path of each of its proper ancestors but the document root. -/
theorem path_follows_tree (hd : d.Reachable) {n : NodeId} {e : Element}
    (he : d.element? n = some e) :
    (n ≠ root → ∀ a, Ascent.Reaches d (.start n) a →
      ∃ b, Ascent.Reaches d a b ∧ b.step? d = none ∧ b.text = d.path n) ∧
    d.path root = "#document" ∧
    (n ≠ root → ∃ p, d.parent? n = some p ∧
      d.path n = if p = root then d.segment n else d.path p ++ " > " ++ d.segment n) ∧
    (∀ runs, Text.HasRuns e.classList.toList runs →
      d.segment n = e.tag ++ (e.id.map ("#" ++ ·)).getD "" ++
        String.join (runs.map fun token => "." ++ String.ofList token)) ∧
    (∀ a, d.IsAbove a n → a ≠ root → ∃ rest, d.path n = d.path a ++ " > " ++ rest) := by
  have h := hd.wellFormed
  have hn : n < d.size := lt_size_of_element? he
  refine ⟨?_, path_root h, ?_, fun runs => segment_eq he, fun a => exists_path_eq_append h⟩
  · intro hne a ha
    have hleads := (Ascent.leadsTo_start hn).reaches h ha
    obtain ⟨b, hb, hend, hparts⟩ := hleads.exists_end h
    refine ⟨b, hb, hend, ?_⟩
    rw [Ascent.text, hparts, path_eq h hn hne, List.map_reverse]
  · intro hne
    obtain ⟨p, -, hp⟩ := exists_isParent h hn hne
    refine ⟨p, hp, ?_⟩
    by_cases hroot : p = root
    · subst hroot
      rw [if_pos rfl]
      exact path_of_isParent_root h hp
    · rw [if_neg hroot]
      exact path_of_isParent h hp hroot

/-- A menu in a page whose root has been given an id and a class. -/
def markedPage : Document :=
  (Operation.setClasses 0 "wide").run ((Operation.setId 0 (some "page")).run
    (.ofSpec ⟨"nav", some "top", none, none,
      [⟨"ul", none, some " menu\twide ", none, [⟨"li", none, none, none, []⟩]⟩]⟩))

/-- What is set on the document root does not show in a path. -/
theorem path_markedPage :
    markedPage.Reachable ∧ markedPage.element? 3 = some ⟨"li", none, "", none, some 2, #[]⟩ ∧
    markedPage.IsAbove 1 3 ∧ markedPage.path 0 = "#document" ∧
    markedPage.path 1 = "nav#top" ∧ markedPage.path 3 = "nav#top > ul.menu.wide > li" ∧
    (∃ b, Ascent.Reaches markedPage ⟨some 2, ["li"]⟩ b ∧ b.step? markedPage = none ∧
      b.text = "nav#top > ul.menu.wide > li") ∧
    ∃ rest, markedPage.path 3 = markedPage.path 1 ++ " > " ++ rest := by
  have hd : markedPage.Reachable := .step _ (.step _ (.ofSpec _))
  have he : markedPage.element? 3 = some ⟨"li", none, "", none, some 2, #[]⟩ := by decide
  have habove : markedPage.IsAbove 1 3 :=
    .tail (.single (show markedPage.parent? 2 = some 1 by decide))
      (show markedPage.parent? 3 = some 2 by decide)
  have hpath : markedPage.path 3 = "nav#top > ul.menu.wide > li" := by decide
  have hstep : Ascent.Reaches markedPage (.start 3) ⟨some 2, ["li"]⟩ := by
    refine .single ?_
    decide
  obtain ⟨hends, hroot, -, -, hprefix⟩ := path_follows_tree hd he
  refine ⟨hd, he, habove, hroot, by decide, hpath, ?_, hprefix 1 habove (by decide)⟩
  exact hpath ▸ hends (by decide) _ hstep

end TreeQuery.Document
