import Mathlib.Data.List.Nodup
import Mathlib.Data.List.Perm.Subperm
import TreeQuery.Proofs.Document.Ancestry

/-! # Pre-order — the scan of a subtree

    The nodes below a node are scanned with a list of pending nodes and a bound
    on the number of steps. Here the scan is compared with the order it is meant
    to have, in which every node stands right before the nodes below it:

    * **The order**: a relation between pending nodes and the list of all nodes
      of their subtrees, one rule per form of the pending list.
    * **Contents**: in a well-formed document such a list holds exactly the
      pending nodes and what stands below them, and no node twice if no pending
      node stands below another.
    * **The scan**: the bound of the scan suffices, so the descendants of a node
      are its subtree in pre-order.
-/

namespace TreeQuery.Document

variable {d : Document}

/-! ### Children -/

theorem mem_children_iff (h : WellFormed d) {p c : NodeId} :
    c ∈ d.children p ↔ d.IsParent p c := by
  rw [isParent_iff h]
  unfold children
  cases he : d.element? p with
  | none =>
    simp only [List.not_mem_nil, false_iff, not_exists, not_and]
    intro e hc hp
    have hlt : p < d.size := Nat.lt_trans (h.parent_lt hc hp) (lt_size_of_element? hc)
    exact Nat.not_le_of_gt hlt (element?_eq_none_iff.mp he)
  | some e =>
    simp only [List.mem_filter, contains_iff, h.mem_children_iff he]
    constructor
    · exact fun hc => hc.1
    · rintro ⟨ec, hc, hp⟩
      exact ⟨⟨ec, hc, hp⟩, lt_size_of_element? hc⟩

theorem pairwise_children (h : WellFormed d) (n : NodeId) :
    (d.children n).Pairwise (· < ·) := by
  unfold children
  cases he : d.element? n with
  | none => exact .nil
  | some e => exact (h.children_sorted he).filter _

/-- What stands below a node is one of its children or stands below one. -/
theorem isAbove_iff_exists_child (h : WellFormed d) {n m : NodeId} :
    d.IsAbove n m ↔ ∃ c ∈ d.children n, m = c ∨ d.IsAbove c m := by
  constructor
  · intro hm
    obtain ⟨c, hc, hcm⟩ := Relation.TransGen.head'_iff.mp hm
    exact ⟨c, (mem_children_iff h).mpr hc, Relation.reflTransGen_iff_eq_or_transGen.mp hcm⟩
  · rintro ⟨c, hc, rfl | hm⟩
    · exact .single ((mem_children_iff h).mp hc)
    · exact .head ((mem_children_iff h).mp hc) hm

/-- Nothing stands above its sibling. -/
theorem not_isAbove_of_mem_children (h : WellFormed d) {p b c : NodeId}
    (hb : b ∈ d.children p) (hc : c ∈ d.children p) : ¬ d.IsAbove b c := by
  intro habove
  have hbp : d.IsAbove p b := .single ((mem_children_iff h).mp hb)
  rcases (isAbove_iff_of_isParent ((mem_children_iff h).mp hc)).mp habove with rfl | hbp'
  · exact IsAbove.irrefl h hbp
  · exact IsAbove.irrefl h (hbp.trans hbp')

/-! ### The order -/

/-- The second list goes through the nodes of the first, each of them right before everything
    that hangs below it. -/
inductive IsPreorder (d : Document) : List NodeId → List NodeId → Prop where
  | nil : IsPreorder d [] []
  | cons {n : NodeId} {ns below rest : List NodeId} :
      IsPreorder d (d.children n) below → IsPreorder d ns rest →
      IsPreorder d (n :: ns) (n :: (below ++ rest))

theorem IsPreorder.append {ns ms l l' : List NodeId} (hl : d.IsPreorder ns l)
    (hl' : d.IsPreorder ms l') : d.IsPreorder (ns ++ ms) (l ++ l') := by
  induction hl with
  | nil => exact hl'
  | cons hbelow _ _ ih =>
    rw [List.cons_append, List.cons_append, List.append_assoc]
    exact .cons hbelow ih

/-- Children have larger numbers, so the order goes down only finitely often. -/
theorem exists_isPreorder (h : WellFormed d) (ns : List NodeId) : ∃ l, d.IsPreorder ns l := by
  suffices hbound : ∀ k (ns : List Nat), (∀ n ∈ ns, d.size - n ≤ k) → ∃ l, d.IsPreorder ns l from
    hbound d.size ns fun n _ => Nat.sub_le d.size n
  intro k
  -- a node in the document has a smaller distance to its size than its parent
  induction k with
  | zero =>
    intro ns hns
    induction ns with
    | nil => exact ⟨[], .nil⟩
    | cons n ns ih =>
      obtain ⟨rest, hrest⟩ := ih fun m hm => hns m (List.mem_cons_of_mem n hm)
      have hchildren : d.children n = [] := by
        unfold children
        rw [element?_eq_none_iff.mpr (by have := hns n List.mem_cons_self; omega)]
      exact ⟨n :: ([] ++ rest), .cons (by rw [hchildren]; exact .nil) hrest⟩
  | succ k ihk =>
    intro ns hns
    induction ns with
    | nil => exact ⟨[], .nil⟩
    | cons n ns ih =>
      obtain ⟨rest, hrest⟩ := ih fun m hm => hns m (List.mem_cons_of_mem n hm)
      obtain ⟨below, hbelow⟩ := ihk (d.children n) (by
        intro c hc
        have hp := (mem_children_iff h).mp hc
        have hlt : n < c := hp.lt h
        have hsize : c < d.size := hp.contains h
        have := hns n List.mem_cons_self
        omega)
      exact ⟨n :: (below ++ rest), .cons hbelow hrest⟩

/-! ### Contents -/

theorem IsPreorder.mem_iff (h : WellFormed d) {ns l : List NodeId} (hl : d.IsPreorder ns l)
    {m : NodeId} : m ∈ l ↔ ∃ n ∈ ns, m = n ∨ d.IsAbove n m := by
  induction hl with
  | nil => simp
  | @cons n ns below rest _ _ ihbelow ihrest =>
    rw [List.mem_cons, List.mem_append, ihbelow, ihrest, List.exists_mem_cons_iff,
      ← isAbove_iff_exists_child h, or_assoc]

/-- Trees that do not lie inside one another are listed without repetition. -/
theorem IsPreorder.nodup (h : WellFormed d) {ns l : List NodeId} (hl : d.IsPreorder ns l)
    (hns : ns.Nodup) (hapart : ∀ a ∈ ns, ∀ b ∈ ns, ¬ d.IsAbove a b) : l.Nodup := by
  induction hl with
  | nil => exact List.nodup_nil
  | @cons n ns below rest hbelow hrest ihbelow ihrest =>
    have hn : n ∉ ns := (List.nodup_cons.mp hns).1
    have hself : n ∈ n :: ns := List.mem_cons_self
    have hbelowNodup : below.Nodup := ihbelow
      ((pairwise_children h n).imp fun hlt => Nat.ne_of_lt hlt)
      fun a ha b hb => not_isAbove_of_mem_children h ha hb
    have hrestNodup : rest.Nodup := ihrest (List.nodup_cons.mp hns).2
      fun a ha b hb => hapart a (List.mem_cons_of_mem n ha) b (List.mem_cons_of_mem n hb)
    -- what stands below `n` and below another pending node would make the two comparable
    have hcross : ∀ m, m = n ∨ d.IsAbove n m → m ∉ rest := by
      intro m hm hmem
      obtain ⟨b, hb, hbm⟩ := (hrest.mem_iff h).mp hmem
      have hb' : b ∈ n :: ns := List.mem_cons_of_mem n hb
      rcases hm with rfl | hm
      · rcases hbm with rfl | hbm
        · exact hn hb
        · exact hapart b hb' m hself hbm
      · rcases hbm with rfl | hbm
        · exact hapart n hself m hb' hm
        · rcases hm.comparable hbm with rfl | hnb | hbn
          · exact hn hb
          · exact hapart n hself b hb' hnb
          · exact hapart b hb' n hself hbn
    have hmemBelow : ∀ m ∈ below, d.IsAbove n m :=
      fun m hm => (isAbove_iff_exists_child h).mpr ((hbelow.mem_iff h).mp hm)
    refine List.nodup_cons.mpr ⟨?_, List.nodup_append.mpr ⟨hbelowNodup, hrestNodup, ?_⟩⟩
    · intro hmem
      rcases List.mem_append.mp hmem with hmem | hmem
      · exact IsAbove.irrefl h (hmemBelow n hmem)
      · exact hcross n (.inl rfl) hmem
    · rintro a ha b hb rfl
      exact hcross a (.inr (hmemBelow a ha)) hb

/-! ### Segments -/

/-- There is one such order only. -/
theorem IsPreorder.eq {ns l l' : List NodeId} (hl : d.IsPreorder ns l)
    (hl' : d.IsPreorder ns l') : l = l' := by
  induction hl generalizing l' with
  | nil =>
    cases hl'
    rfl
  | cons _ _ ihbelow ihrest =>
    cases hl' with
    | cons hbelow hrest => rw [ihbelow hbelow, ihrest hrest]

/-- What hangs below a node stands right behind it. -/
theorem IsPreorder.exists_segment {ns l : List NodeId} (hl : d.IsPreorder ns l) {m : NodeId}
    (hm : m ∈ l) :
    ∃ before below after, l = before ++ m :: (below ++ after) ∧
      d.IsPreorder (d.children m) below := by
  induction hl with
  | nil => cases hm
  | @cons n ns below rest hbelow _ ihbelow ihrest =>
    rcases List.mem_cons.mp hm with rfl | hm
    · exact ⟨[], below, rest, rfl, hbelow⟩
    · rcases List.mem_append.mp hm with hm | hm
      · obtain ⟨before, segment, after, rfl, hsegment⟩ := ihbelow hm
        exact ⟨n :: before, segment, after ++ rest, by simp, hsegment⟩
      · obtain ⟨before, segment, after, rfl, hsegment⟩ := ihrest hm
        exact ⟨n :: (below ++ before), segment, after, by simp, hsegment⟩

/-! ### The scan -/

/-- The scan with enough steps is the pre-order of its pending nodes. -/
theorem preorder_eq_of_isPreorder {k : Nat} {ns l : List NodeId} (hl : d.IsPreorder ns l)
    (hk : l.length ≤ k) : d.preorder k ns = l := by
  induction k generalizing ns l with
  | zero =>
    cases hl with
    | nil => rfl
    | cons _ _ => exact absurd hk (by simp)
  | succ k ih =>
    cases hl with
    | nil => rfl
    | cons hbelow hrest =>
      rw [preorder, ih (hbelow.append hrest) (by simpa using hk)]

/-- The descendants of a node are the subtrees of its children in pre-order. -/
theorem isPreorder_descendants (h : WellFormed d) (n : NodeId) :
    d.IsPreorder (d.children n) (d.descendants n) := by
  obtain ⟨l, hl⟩ := exists_isPreorder h (d.children n)
  -- no node is listed twice, so the order is no longer than the document is large
  have hnodup : l.Nodup := hl.nodup h ((pairwise_children h n).imp fun hlt => Nat.ne_of_lt hlt)
    fun a ha b hb => not_isAbove_of_mem_children h ha hb
  have hsub : l ⊆ List.range d.size := by
    intro m hm
    have hnm : d.IsAbove n m := (isAbove_iff_exists_child h).mpr ((hl.mem_iff h).mp hm)
    exact List.mem_range.mpr (hnm.contains h)
  have hlength := (List.subperm_of_subset hnodup hsub).length_le
  rw [List.length_range] at hlength
  unfold descendants
  rw [preorder_eq_of_isPreorder hl hlength]
  exact hl

theorem mem_descendants_iff (h : WellFormed d) {n m : NodeId} :
    m ∈ d.descendants n ↔ d.IsAbove n m := by
  rw [(isPreorder_descendants h n).mem_iff h, isAbove_iff_exists_child h]

theorem nodup_descendants (h : WellFormed d) (n : NodeId) : (d.descendants n).Nodup :=
  (isPreorder_descendants h n).nodup h
    ((pairwise_children h n).imp fun hlt => Nat.ne_of_lt hlt)
    fun _ ha _ hb => not_isAbove_of_mem_children h ha hb

/-- Of the nodes below a root, those below one of them are listed in the same order. -/
theorem filter_descendants (h : WellFormed d) {r m : NodeId} (hm : d.IsAbove r m) :
    (d.descendants r).filter (· ∈ d.descendants m) = d.descendants m := by
  obtain ⟨before, below, after, hsplit, hbelow⟩ :=
    (isPreorder_descendants h r).exists_segment ((mem_descendants_iff h).mpr hm)
  obtain rfl := hbelow.eq (isPreorder_descendants h m)
  have hnodup : (before ++ m :: (d.descendants m ++ after)).Nodup :=
    hsplit ▸ nodup_descendants h r
  simp only [List.nodup_append', List.nodup_cons, List.disjoint_cons_right, List.mem_append,
    List.disjoint_append_right] at hnodup
  obtain ⟨-, ⟨hself, -, -, hafter⟩, -, hbefore, -⟩ := hnodup
  -- the other members of the list are none of the nodes of the segment
  have hnil : ∀ l : List NodeId, l.Disjoint (d.descendants m) →
      l.filter (· ∈ d.descendants m) = [] := by
    intro l hl
    rw [List.filter_eq_nil_iff]
    intro k hk hmem
    exact hl hk (of_decide_eq_true hmem)
  have hall : (d.descendants m).filter (· ∈ d.descendants m) = d.descendants m :=
    List.filter_eq_self.mpr fun k hk => decide_eq_true hk
  have hhead : ¬decide (m ∈ d.descendants m) = true :=
    fun hmem => hself (.inl (of_decide_eq_true hmem))
  rw [hsplit, List.filter_append, List.filter_cons, List.filter_append, hnil before hbefore,
    hnil after (List.disjoint_symm hafter), hall, if_neg hhead, List.nil_append, List.append_nil]

end TreeQuery.Document
