import TreeQuery.Proofs.Document.Tree

/-! # Scans — the nodes below a node, listed with a stack

    The nodes below a node are listed by a loop over a stack. Children are put on
    the stack in reverse, so the first of them lies on top, and nothing in the loop
    counts its rounds. Here the loop is followed step by step:

    * **Steps**: what has been listed and what is still to come make up the same
      list before and after every step, and the part that is to come gets shorter.
      So the scan ends, and it ends with the list of descendants.
    * **Recursion**: the descendants of a node are its children in turn, each with
      its own descendants behind it.
    * **Segments**: the descendants of a lower node stand together in the list of
      an upper one.

    Main statement: `descendants_eq_recursive_preorder`
-/

namespace TreeQuery.Document

variable {d : Document}

/-! ### Steps -/

/-- Where a scan stands: the nodes on its stack, the topmost one last, and the nodes that it has
    listed. -/
structure Scan where
  stack : List NodeId
  listed : List NodeId

namespace Scan

variable {s t : Scan} {l : List NodeId}

/-- A scan of what hangs below a node, at its start. -/
def start (d : Document) (n : NodeId) : Scan := ⟨(d.children n).reverse, []⟩

/-- A scan that has nothing left to do. -/
def done (listed : List NodeId) : Scan := ⟨[], listed⟩

/-- One step takes the topmost node off the stack, lists it, and puts its children on the stack, the
    first of them on top. -/
def step? (d : Document) (s : Scan) : Option Scan :=
  s.stack.getLast?.map fun n =>
    ⟨s.stack.dropLast ++ (d.children n).reverse, s.listed ++ [n]⟩

/-- One scan goes on to the other in some number of steps. -/
def Reaches (d : Document) : Scan → Scan → Prop :=
  Relation.ReflTransGen fun s t => s.step? d = some t

/-- What a scan has listed and what is still to come make up a list. -/
def LeadsTo (d : Document) (s : Scan) (l : List NodeId) : Prop :=
  ∃ rest, d.IsPreorder s.stack.reverse rest ∧ l = s.listed ++ rest

theorem step?_eq_none_iff : s.step? d = none ↔ s.stack = [] := by
  rw [step?, Option.map_eq_none_iff, List.getLast?_eq_none_iff]

theorem step?_eq_some (h : s.step? d = some t) :
    ∃ stack n, s = ⟨stack ++ [n], s.listed⟩ ∧
      t = ⟨stack ++ (d.children n).reverse, s.listed ++ [n]⟩ := by
  obtain ⟨n, hn, rfl⟩ := Option.map_eq_some_iff.mp h
  obtain ⟨stack, hstack⟩ := List.getLast?_eq_some_iff.mp hn
  refine ⟨stack, n, ?_, ?_⟩
  · rw [← hstack]
  · rw [hstack, List.dropLast_concat]

/-- **Step**: the list that a scan leads to does not change. -/
theorem LeadsTo.step (h : s.LeadsTo d l) (hstep : s.step? d = some t) : t.LeadsTo d l := by
  obtain ⟨rest, hrest, rfl⟩ := h
  obtain ⟨stack, n, hs, rfl⟩ := step?_eq_some hstep
  rw [hs, List.reverse_concat] at hrest
  -- the node comes first, then what hangs below it, then what hangs below the rest of the stack
  cases hrest with
  | @cons _ _ below others hbelow hothers =>
    refine ⟨below ++ others, ?_, by simp⟩
    rw [List.reverse_append, List.reverse_reverse]
    exact hbelow.append hothers

/-- **Run**: nor does it change in any number of steps. -/
theorem LeadsTo.reaches (h : s.LeadsTo d l) (hreaches : Reaches d s t) : t.LeadsTo d l := by
  induction hreaches with
  | refl => exact h
  | tail _ hstep ih => exact ih.step hstep

/-- A step lists one more node. -/
theorem length_listed_of_step? (h : s.step? d = some t) :
    t.listed.length = s.listed.length + 1 := by
  obtain ⟨stack, n, _, rfl⟩ := step?_eq_some h
  simp

theorem LeadsTo.length_le (h : s.LeadsTo d l) : s.listed.length ≤ l.length := by
  obtain ⟨rest, _, rfl⟩ := h
  simp

/-- With nothing on the stack, everything has been listed. -/
theorem LeadsTo.eq_done (h : s.LeadsTo d l) (hstack : s.stack = []) : s = done l := by
  obtain ⟨rest, hrest, rfl⟩ := h
  obtain ⟨stack, listed⟩ := s
  obtain rfl : stack = [] := hstack
  cases hrest
  simp [done]

/-- A scan goes on until it has listed everything. -/
theorem LeadsTo.reaches_done (h : s.LeadsTo d l) : Reaches d s (done l) := by
  -- the list does not change, and every step lists one more of its nodes
  induction hk : l.length - s.listed.length using Nat.strongRecOn generalizing s with
  | ind k ih =>
    cases hstep : s.step? d with
    | none =>
      rw [h.eq_done (step?_eq_none_iff.mp hstep)]
      exact .refl
    | some t =>
      have hlater := h.step hstep
      have hlisted := length_listed_of_step? hstep
      have hle := hlater.length_le
      exact .head hstep (ih (l.length - t.listed.length) (by omega) hlater rfl)

theorem leadsTo_start (h : WellFormed d) (n : NodeId) :
    (start d n).LeadsTo d (d.descendants n) := by
  refine ⟨d.descendants n, ?_, rfl⟩
  unfold start
  rw [List.reverse_reverse]
  exact isPreorder_descendants h n

end Scan

/-! ### Recursion -/

theorem isPreorder_flatMap (h : WellFormed d) (ns : List NodeId) :
    d.IsPreorder ns (ns.flatMap fun c => c :: d.descendants c) := by
  induction ns with
  | nil => exact .nil
  | cons n ns ih => exact .cons (isPreorder_descendants h n) ih

theorem descendants_eq_flatMap (h : WellFormed d) (n : NodeId) :
    d.descendants n = (d.children n).flatMap fun c => c :: d.descendants c :=
  (isPreorder_descendants h n).eq (isPreorder_flatMap h (d.children n))

/-! ### Segments -/

theorem exists_descendants_eq (h : WellFormed d) {n m : NodeId} (hm : d.IsAbove n m) :
    ∃ before after, d.descendants n = before ++ m :: d.descendants m ++ after := by
  obtain ⟨before, below, after, hsplit, hbelow⟩ :=
    (isPreorder_descendants h n).exists_segment ((mem_descendants_iff h).mpr hm)
  obtain rfl := hbelow.eq (isPreorder_descendants h m)
  exact ⟨before, after, by rw [hsplit, List.append_assoc, List.cons_append]⟩

theorem isAbove_iff_mem_lineage (h : WellFormed d) {n m : NodeId} :
    d.IsAbove n m ↔ m ≠ n ∧ n ∈ d.lineage m := by
  rw [lineage_eq, List.mem_cons, mem_ancestors_iff h]
  constructor
  · intro hm
    exact ⟨Nat.ne_of_gt (hm.lt h), .inr hm⟩
  · rintro ⟨hne, rfl | hm⟩
    · exact absurd rfl hne
    · exact hm

/-- **Main theorem**: on every reachable document, a scan of what hangs below a node comes to an end
    whatever step it has got to, and it then has listed the descendants. They are the children in
    document order, each with its own descendants behind it, without repetition; they are exactly
    the nodes that the node is a proper ancestor of; and the descendants of each of them follow it
    in one piece. -/
theorem descendants_eq_recursive_preorder (hd : d.Reachable) (n : NodeId) :
    (∀ s, Scan.Reaches d (.start d n) s → Scan.Reaches d s (.done (d.descendants n))) ∧
    d.descendants n = ((d.children n).flatMap fun c => c :: d.descendants c) ∧
    (d.descendants n).Nodup ∧
    (∀ m, m ∈ d.descendants n ↔ m ≠ n ∧ n ∈ d.lineage m) ∧
    ∀ m, d.IsAbove n m →
      ∃ before after, d.descendants n = before ++ m :: d.descendants m ++ after := by
  have h := hd.wellFormed
  refine ⟨?_, descendants_eq_flatMap h n, nodup_descendants h n, ?_, ?_⟩
  · intro s hs
    exact ((Scan.leadsTo_start h n).reaches hs).reaches_done
  · intro m
    rw [mem_descendants_iff h, isAbove_iff_mem_lineage h]
  · intro m hm
    exact exists_descendants_eq h hm

/-- A page with a list and a paragraph, where the list has got its second item last. -/
def latePage : Document :=
  (Operation.append 2 "li").run (.ofSpec ⟨"body", none, none, none,
    [⟨"ul", none, none, none, [⟨"li", none, none, none, []⟩]⟩, ⟨"p", none, none, none, []⟩]⟩)

/-- The late item is listed with the list that it belongs to, before the paragraph. -/
theorem descendants_latePage :
    latePage.Reachable ∧ latePage.IsAbove 1 2 ∧
    latePage.descendants 1 = [2, 3, 5, 4] ∧
    Scan.Reaches latePage ⟨[4, 2], []⟩ (.done [2, 3, 5, 4]) ∧
    ∃ before after, [2, 3, 5, 4] = before ++ 2 :: latePage.descendants 2 ++ after := by
  have hd : latePage.Reachable := .step _ (.ofSpec _)
  have habove : latePage.IsAbove 1 2 := .single (show latePage.parent? 2 = some 1 by decide)
  have hlist : latePage.descendants 1 = [2, 3, 5, 4] := by decide
  obtain ⟨hends, -, -, -, hsegment⟩ := descendants_eq_recursive_preorder hd 1
  refine ⟨hd, habove, hlist, ?_, ?_⟩
  · exact hlist ▸ hends ⟨[4, 2], []⟩ .refl
  · exact hlist ▸ hsegment 2 habove

end TreeQuery.Document
