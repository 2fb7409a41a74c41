import Mathlib.Logic.Relation
import Mathlib.Data.List.Chain
import TreeQuery.Proofs.Document.WellFormed

/-! # Ancestry — which nodes stand above which

    A node stands above another if a walk over parents leads from the latter to
    the former. In a well-formed document the walk is finite, so the list of
    ancestors that is computed with a bound on its length is the whole walk:

    * **Walk equations**: the ancestors of a node are its parent followed by the
      ancestors of the parent.
    * **Choosing ancestors**: the sublists of the ancestors of a node are exactly
      the ways to go up from it, skipping nodes at will.
-/

namespace TreeQuery.Document

variable {d : Document}

/-- The first node is the parent of the second. -/
def IsParent (d : Document) (p n : NodeId) : Prop := d.parent? n = some p

/-- The first node is a proper ancestor of the second. -/
def IsAbove (d : Document) : NodeId → NodeId → Prop := Relation.TransGen d.IsParent

instance : Trans d.IsAbove d.IsAbove d.IsAbove := ⟨Relation.TransGen.trans⟩

/-! ### Parents -/

theorem isParent_iff (h : WellFormed d) {p n : NodeId} :
    d.IsParent p n ↔ ∃ e, d.element? n = some e ∧ e.parent = some p := by
  unfold IsParent parent?
  simp only [Option.filter_eq_some_iff, Option.bind_eq_some_iff, contains_iff]
  constructor
  · rintro ⟨hp, -⟩
    exact hp
  · rintro ⟨e, he, hp⟩
    exact ⟨⟨e, he, hp⟩, Nat.lt_trans (h.parent_lt he hp) (lt_size_of_element? he)⟩

theorem IsParent.lt (h : WellFormed d) {p n : NodeId} (hp : d.IsParent p n) : p < n := by
  obtain ⟨e, he, hparent⟩ := (isParent_iff h).mp hp
  exact h.parent_lt he hparent

theorem IsParent.contains (h : WellFormed d) {p n : NodeId} (hp : d.IsParent p n) :
    n < d.size := by
  obtain ⟨e, he, -⟩ := (isParent_iff h).mp hp
  exact lt_size_of_element? he

theorem IsAbove.lt (h : WellFormed d) {a n : NodeId} (ha : d.IsAbove a n) : a < n := by
  induction ha with
  | single hp => exact hp.lt h
  | tail _ hp ih => exact Nat.lt_trans ih (hp.lt h)

theorem IsAbove.contains (h : WellFormed d) {a n : NodeId} (ha : d.IsAbove a n) :
    n < d.size := by
  cases ha with
  | single hp => exact hp.contains h
  | tail _ hp => exact hp.contains h

theorem IsAbove.irrefl (h : WellFormed d) {n : NodeId} : ¬ d.IsAbove n n :=
  fun ha => Nat.lt_irrefl n (ha.lt h)

/-- Whatever stands above a node is its parent or stands above its parent. -/
theorem isAbove_iff_of_isParent {a p n : NodeId} (hp : d.IsParent p n) :
    d.IsAbove a n ↔ a = p ∨ d.IsAbove a p := by
  constructor
  · intro ha
    cases ha with
    | single hparent => exact .inl (Option.some.inj (hparent.symm.trans hp))
    | tail hq hparent =>
      obtain rfl := Option.some.inj (hparent.symm.trans hp)
      exact .inr hq
  · rintro (rfl | ha)
    · exact .single hp
    · exact .tail ha hp

/-- Two nodes above the same node are comparable. -/
theorem IsAbove.comparable {a b n : NodeId} (ha : d.IsAbove a n) (hb : d.IsAbove b n) :
    a = b ∨ d.IsAbove a b ∨ d.IsAbove b a := by
  induction ha generalizing b with
  | single hp =>
    rcases (isAbove_iff_of_isParent hp).mp hb with rfl | hb
    · exact .inl rfl
    · exact .inr (.inr hb)
  | tail ha hp ih =>
    rcases (isAbove_iff_of_isParent hp).mp hb with rfl | hb
    · exact .inr (.inl ha)
    · exact ih hb

/-! ### Walk equations -/

/-- The bound on a walk does not matter as long as it exceeds the number of the first node. -/
theorem climb_eq_lineage (h : WellFormed d) {n k : Nat} (hk : n < k) :
    d.climb k (some n) = d.lineage n := by
  induction n using Nat.strongRecOn generalizing k with
  | ind n ih =>
    -- the walk goes on at the parent, which has a smaller number
    obtain ⟨k, rfl⟩ : ∃ j, k = j + 1 := ⟨k - 1, by omega⟩
    rw [lineage_eq, climb, ancestors]
    congr 1
    cases hp : d.parent? n with
    | none => simp [climb]
    | some p =>
      have hlt : p < n := IsParent.lt h hp
      rw [ih p hlt (Nat.lt_of_lt_of_le hlt (Nat.lt_succ_iff.mp hk)), ih p hlt hlt]

theorem ancestors_of_isParent (h : WellFormed d) {p n : NodeId} (hp : d.IsParent p n) :
    d.ancestors n = p :: d.ancestors p := by
  rw [ancestors, hp, climb_eq_lineage h (hp.lt h), lineage_eq]

theorem ancestors_of_parent?_eq_none {n : NodeId} (hn : d.parent? n = none) :
    d.ancestors n = [] := by
  rw [ancestors, hn]
  simp [climb]

/-- The ancestors of a node go on with the ancestors of each of them. -/
theorem IsAbove.exists_ancestors_eq (h : WellFormed d) {a n : NodeId} (ha : d.IsAbove a n) :
    ∃ nearer, d.ancestors n = nearer ++ a :: d.ancestors a := by
  induction ha with
  | single hp => exact ⟨[], by rw [ancestors_of_isParent h hp, List.nil_append]⟩
  | @tail p n _ hp ih =>
    obtain ⟨nearer, hnearer⟩ := ih
    exact ⟨p :: nearer, by rw [ancestors_of_isParent h hp, hnearer, List.cons_append]⟩

theorem mem_ancestors_iff (h : WellFormed d) {a n : NodeId} :
    a ∈ d.ancestors n ↔ d.IsAbove a n := by
  constructor
  · intro ha
    induction n using Nat.strongRecOn with
    | ind n ih =>
      cases hp : d.parent? n with
      | none =>
        rw [ancestors_of_parent?_eq_none hp] at ha
        cases ha
      | some p =>
        rw [ancestors_of_isParent h hp] at ha
        rcases List.mem_cons.mp ha with rfl | ha
        · exact .single hp
        · exact .tail (ih p (IsParent.lt h hp) ha) hp
  · intro ha
    obtain ⟨nearer, hnearer⟩ := ha.exists_ancestors_eq h
    rw [hnearer]
    exact List.mem_append_right nearer List.mem_cons_self

/-! ### Choosing ancestors -/

theorem pairwise_lineage (h : WellFormed d) (n : NodeId) :
    (d.lineage n).Pairwise fun m a => d.IsAbove a m := by
  induction n using Nat.strongRecOn with
  | ind n ih =>
    rw [lineage_eq, List.pairwise_cons]
    refine ⟨fun a ha => (mem_ancestors_iff h).mp ha, ?_⟩
    cases hp : d.parent? n with
    | none => rw [ancestors_of_parent?_eq_none hp]; exact List.Pairwise.nil
    | some p =>
      rw [ancestors_of_isParent h hp, ← lineage_eq]
      exact ih p (IsParent.lt h hp)

/-- A list of nodes is chosen from the ancestors of a node, in order, exactly if each of its
    nodes stands above the one before it and the first one above the node itself. -/
theorem sublist_ancestors_iff (h : WellFormed d) {n : NodeId} {chosen : List NodeId} :
    chosen.Sublist (d.ancestors n) ↔ (n :: chosen).IsChain fun m a => d.IsAbove a m := by
  constructor
  · intro hsub
    have hpair := (pairwise_lineage h n).sublist (lineage_eq d n ▸ hsub.cons_cons n)
    exact hpair.isChain
  · -- each node of the chain is among the ancestors of the one before it
    intro hchain
    induction chosen generalizing n with
    | nil => exact List.nil_sublist _
    | cons a chosen ih =>
      obtain ⟨ha, hrest⟩ := List.isChain_cons_cons.mp hchain
      obtain ⟨nearer, hnearer⟩ := ha.exists_ancestors_eq h
      rw [hnearer]
      exact ((ih hrest).cons_cons a).trans (List.sublist_append_right nearer _)

end TreeQuery.Document
