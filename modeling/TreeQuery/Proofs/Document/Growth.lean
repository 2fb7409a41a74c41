import TreeQuery.Proofs.Document.Tree

/-! # Growth — what appending leaves as it was

    Elements that are appended get larger numbers than all elements before them,
    but they may hang anywhere and so come into the middle of the document order.
    Here a document that has grown is compared with what it has grown out of:

    * **Elements**: an old element only gains new children, behind the old ones;
      new elements have no other ids than those that were brought in.
    * **Ways up**: the way up from an old node is the same.
    * **Ways down**: the old nodes below an old node are the same, in the same
      order, with new nodes among them.
-/

namespace TreeQuery.Document

variable {base d : Document} {allowed : String → Prop}

/-! ### Elements -/

/-- An element that has gained some children at most. -/
def Gains (size : Nat) (e e' : Element) : Prop :=
  e' = { e with children := e'.children } ∧
    ∃ added, e'.children.toList = e.children.toList ++ added ∧ ∀ c ∈ added, size ≤ c

theorem Gains.refl (size : Nat) (e : Element) : Gains size e e :=
  ⟨rfl, [], (List.append_nil _).symm, List.forall_mem_nil _⟩

theorem Gains.adopt {size : Nat} {e e' : Element} (h : Gains size e e') {c : NodeId}
    (hc : size ≤ c) : Gains size e (e'.adopt c) := by
  obtain ⟨heq, added, hchildren, hadded⟩ := h
  refine ⟨?_, added ++ [c], ?_, ?_⟩
  · unfold Element.adopt
    rw [heq]
  · unfold Element.adopt
    rw [Array.toList_push, hchildren, List.append_assoc]
  · intro c' hc'
    rcases List.mem_append.mp hc' with hc' | hc'
    · exact hadded c' hc'
    · rwa [List.mem_singleton.mp hc']

/-- Every old element is still there and has gained new children at most. -/
theorem Grows.exists_gains (h : Grows base allowed d) {n : NodeId} {e : Element}
    (he : base.element? n = some e) : ∃ e', d.element? n = some e' ∧ Gains base.size e e' := by
  have hn := lt_size_of_element? he
  induction h with
  | refl => exact ⟨e, he, .refl _ e⟩
  | @push d parent tag h _ ih =>
    obtain ⟨e', he', hgains⟩ := ih
    rw [element?_push, if_neg (Nat.ne_of_lt (lt_size_of_element? he')), he']
    split
    · exact ⟨_, rfl, hgains.adopt h.size_le⟩
    · exact ⟨e', rfl, hgains⟩
  | @modify d m f _ hm _ _ ih =>
    obtain ⟨e', he', hgains⟩ := ih
    rw [element?_modify, if_neg (Nat.ne_of_gt (Nat.lt_of_lt_of_le hn hm))]
    exact ⟨e', he', hgains⟩

/-- The ids of new elements are those that were brought in. -/
theorem Grows.allowed_of_new (h : Grows base allowed d) {n : NodeId} (hn : base.size ≤ n)
    {e : Element} (he : d.element? n = some e) {key : String} (hkey : e.id = some key) :
    allowed key := by
  induction h generalizing e with
  | refl => exact absurd (lt_size_of_element? he) (Nat.not_lt_of_ge hn)
  | push tag _ _ ih =>
    rcases element?_push_cases he with ⟨-, rfl⟩ | ⟨-, -, e', he', rfl⟩ | ⟨-, -, he'⟩
    · cases hkey
    · exact ih he' hkey
    · exact ih he' hkey
  | modify _ _ _ hallowed ih =>
    rw [element?_modify] at he
    split at he
    · obtain ⟨e', -, rfl⟩ := Option.map_eq_some_iff.mp he
      exact hallowed e' key hkey
    · exact ih he hkey

/-! ### Ways up -/

section

variable (h : Grows base allowed d) (hbase : WellFormed base) (hd : WellFormed d)

include h hbase hd

theorem Grows.parent?_eq {n : NodeId} (hn : n < base.size) : d.parent? n = base.parent? n := by
  obtain ⟨e, he⟩ := exists_element? hn
  obtain ⟨e', he', heq, -⟩ := h.exists_gains he
  rw [Document.parent?_eq hd he', Document.parent?_eq hbase he, heq]

theorem Grows.lineage_eq {n : NodeId} (hn : n < base.size) : d.lineage n = base.lineage n := by
  induction n using Nat.strongRecOn with
  | ind n ih =>
    have hparent := h.parent?_eq hbase hd hn
    rw [Document.lineage_eq, Document.lineage_eq]
    cases hp : base.parent? n with
    | none =>
      rw [ancestors_of_parent?_eq_none hp, ancestors_of_parent?_eq_none (hparent.trans hp)]
    | some p =>
      have hlt : p < n := IsParent.lt hbase hp
      rw [ancestors_of_isParent hbase hp, ancestors_of_isParent hd (hparent.trans hp),
        ← Document.lineage_eq, ← Document.lineage_eq, ih p hlt (Nat.lt_trans hlt hn)]

/-! ### Ways down -/

/-- Of the children of an old node, the old ones are its old children. -/
theorem Grows.filter_children {n : NodeId} (hn : n < base.size) :
    (d.children n).filter base.contains = base.children n := by
  obtain ⟨e, he⟩ := exists_element? hn
  obtain ⟨e', he', -, added, hchildren, hadded⟩ := h.exists_gains he
  have hold : (base.children n).filter base.contains = base.children n := by
    rw [List.filter_eq_self]
    intro c hc
    exact contains_iff.mpr (IsParent.contains hbase ((mem_children_iff hbase).mp hc))
  have hnew : added.filter base.contains = [] := by
    rw [List.filter_eq_nil_iff]
    intro c hc hcontains
    exact Nat.not_lt_of_ge (hadded c hc) (contains_iff.mp hcontains)
  rw [children_eq hd he', hchildren, ← children_eq hbase he, List.filter_append, hold, hnew,
    List.append_nil]

omit h hbase in
/-- Nothing old hangs below a new node. -/
theorem filter_children_of_new {n : NodeId} (hn : base.size ≤ n) :
    (d.children n).filter base.contains = [] := by
  rw [List.filter_eq_nil_iff]
  intro c hc hcontains
  have hlt : n < c := IsParent.lt hd ((mem_children_iff hd).mp hc)
  exact Nat.not_lt_of_ge hn (Nat.lt_trans hlt (contains_iff.mp hcontains))

/-- The old nodes in an order of the grown document are in the order of the old document. -/
theorem Grows.filter_isPreorder {ns l : List NodeId} (hl : d.IsPreorder ns l) :
    base.IsPreorder (ns.filter base.contains) (l.filter base.contains) := by
  induction hl with
  | nil => exact .nil
  | @cons n ns below rest _ _ ihbelow ihrest =>
    by_cases hn : n < base.size
    · rw [h.filter_children hbase hd hn] at ihbelow
      rw [List.filter_cons_of_pos (contains_iff.mpr hn),
        List.filter_cons_of_pos (contains_iff.mpr hn), List.filter_append]
      exact .cons ihbelow ihrest
    · -- a new node goes, and with it everything that hangs below it
      rw [filter_children_of_new hd (Nat.not_lt.mp hn)] at ihbelow
      have hnone : below.filter base.contains = [] := ihbelow.eq .nil
      have hout : ¬base.contains n = true := fun hcontains => hn (contains_iff.mp hcontains)
      rw [List.filter_cons_of_neg hout, List.filter_cons_of_neg hout, List.filter_append, hnone,
        List.nil_append]
      exact ihrest

theorem Grows.filter_descendants {root : NodeId} (hroot : root < base.size) :
    (d.descendants root).filter base.contains = base.descendants root := by
  have hold := h.filter_isPreorder hbase hd (isPreorder_descendants hd root)
  rw [h.filter_children hbase hd hroot] at hold
  exact hold.eq (isPreorder_descendants hbase root)

end

end TreeQuery.Document
