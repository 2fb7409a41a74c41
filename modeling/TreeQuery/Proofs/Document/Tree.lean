import Mathlib.Data.List.TakeWhile
import TreeQuery.Proofs.Document.Preorder

/-! # The tree — what a document looks like from outside

    A document stores every link twice, at the parent and at the child, and it
    looks links up before it hands them out. Here the stored table is compared
    with what the navigation of a document shows of it, for every document that
    some run of operations builds:

    * **Links**: parents and children are handed out as they are stored, and they
      are the two sides of one relation.
    * **Walks**: every way up ends at the document root, and every node is reached
      from there by going down.
    * **Refusals**: an operation on a node that is not there changes nothing, and
      no other operation is refused.
-/

namespace TreeQuery.Document

variable {d : Document}

/-! ### Links -/

/-- Parents are handed out as they are stored. -/
theorem parent?_eq (h : WellFormed d) {n : NodeId} {e : Element} (he : d.element? n = some e) :
    d.parent? n = e.parent := by
  cases hp : e.parent with
  | none =>
    unfold parent?
    rw [he, Option.bind_some, hp]
    rfl
  | some p => exact (isParent_iff h).mpr ⟨e, he, hp⟩

/-- Children are handed out as they are stored. -/
theorem children_eq (h : WellFormed d) {n : NodeId} {e : Element} (he : d.element? n = some e) :
    d.children n = e.children.toList := by
  have hkept : e.children.toList.filter d.contains = e.children.toList := by
    rw [List.filter_eq_self]
    intro c hc
    obtain ⟨ec, hec, -⟩ := (h.mem_children_iff he).mp hc
    exact contains_iff.mpr (lt_size_of_element? hec)
  unfold children
  rw [he]
  exact hkept

theorem exists_element? {n : NodeId} (hn : n < d.size) : ∃ e, d.element? n = some e := by
  cases he : d.element? n with
  | none => exact absurd (element?_eq_none_iff.mp he) (Nat.not_le_of_gt hn)
  | some e => exact ⟨e, rfl⟩

theorem parent?_eq_none_iff (h : WellFormed d) {n : NodeId} (hn : n < d.size) :
    d.parent? n = none ↔ n = root := by
  obtain ⟨e, he⟩ := exists_element? hn
  rw [parent?_eq h he]
  exact h.parent_eq_none_iff he

/-- A node is listed once by its parent, and by no other node. -/
theorem count_children (h : WellFormed d) (p c : NodeId) :
    (d.children p).count c = if d.parent? c = some p then 1 else 0 := by
  have hnodup : (d.children p).Nodup :=
    (pairwise_children h p).imp fun hlt => Nat.ne_of_lt hlt
  rw [hnodup.count]
  exact if_congr (mem_children_iff h) rfl rfl

/-! ### Walks -/

theorem isRoot_iff (h : WellFormed d) {n : NodeId} (hn : n < d.size) :
    d.isRoot n = true ↔ n = root := by
  obtain ⟨e, he⟩ := exists_element? hn
  unfold isRoot
  rw [he, Option.any_some, Option.isNone_iff_eq_none]
  exact h.parent_eq_none_iff he

/-- The way up from a node goes from parent to parent. -/
theorem isChain_lineage (h : WellFormed d) (n : NodeId) :
    (d.lineage n).IsChain fun m p => d.parent? m = some p := by
  induction n using Nat.strongRecOn with
  | ind n ih =>
    rw [lineage_eq]
    cases hp : d.parent? n with
    | none =>
      rw [ancestors_of_parent?_eq_none hp]
      exact .singleton n
    | some p =>
      rw [ancestors_of_isParent h hp]
      exact .cons_cons hp (ih p (IsParent.lt h hp))

/-- The way up from a node ends at the document root, and meets it there for the first time. -/
theorem lineage_eq_takeWhile (h : WellFormed d) {n : NodeId} (hn : n < d.size) :
    d.lineage n = (d.lineage n).takeWhile (fun m => !d.isRoot m) ++ [root] := by
  induction n using Nat.strongRecOn with
  | ind n ih =>
    rw [lineage_eq]
    cases hp : d.parent? n with
    | none =>
      have hroot : n = root := (parent?_eq_none_iff h hn).mp hp
      have hstop : (!d.isRoot n) = false := by
        rw [(isRoot_iff h hn).mpr hroot]
        rfl
      rw [ancestors_of_parent?_eq_none hp, List.takeWhile_cons_of_neg (by simp [hstop]), hroot]
      rfl
    | some p =>
      have hlt : p < n := IsParent.lt h hp
      have hgo : d.isRoot n = false := by
        rw [Bool.eq_false_iff]
        intro hroot
        rw [(isRoot_iff h hn).mp hroot] at hlt
        exact Nat.not_lt_zero p hlt
      rw [ancestors_of_isParent h hp, ← lineage_eq, List.takeWhile_cons_of_pos (by rw [hgo]; rfl),
        List.cons_append, ← ih p hlt (Nat.lt_trans hlt hn)]

/-- The path of a node goes through all nodes on its way up but the document root. -/
theorem path_eq (h : WellFormed d) {n : NodeId} (hn : n < d.size) (hne : n ≠ root) :
    d.path n = " > ".intercalate ((d.lineage n).dropLast.reverse.map d.segment) := by
  have hroot : ¬d.isRoot n = true := fun hroot => hne ((isRoot_iff h hn).mp hroot)
  have hbelow : (d.lineage n).takeWhile (fun m => !d.isRoot m) = (d.lineage n).dropLast := by
    conv => rhs; rw [lineage_eq_takeWhile h hn]
    rw [List.dropLast_concat]
  unfold path
  rw [if_neg hroot]
  dsimp only
  rw [hbelow]

theorem upTo_append_singleton {stop : NodeId} {ns : List NodeId} (h : stop ∉ ns) :
    upTo stop (ns ++ [stop]) = ns ++ [stop] := by
  induction ns with
  | nil => exact if_pos rfl
  | cons n ns ih =>
    have hne : n ≠ stop := fun heq => h (heq ▸ List.mem_cons_self)
    rw [List.cons_append, upTo, if_neg hne, ih fun hmem => h (List.mem_cons_of_mem n hmem)]

/-- Whoever looks no further than the document root looks at the whole way up. -/
theorem upTo_root_lineage (h : WellFormed d) {n : NodeId} (hn : n < d.size) :
    upTo root (d.lineage n) = d.lineage n := by
  have hbefore : root ∉ (d.lineage n).takeWhile fun m => !d.isRoot m := by
    intro hmem
    have hnot := List.mem_takeWhile_imp hmem
    rw [(isRoot_iff (n := root) h h.size_pos).mpr rfl] at hnot
    cases hnot
  rw [lineage_eq_takeWhile h hn]
  exact upTo_append_singleton hbefore

/-- Every node is reached from the document root by going from parent to child. -/
theorem reflTransGen_children (h : WellFormed d) {n : NodeId} (hn : n < d.size) :
    Relation.ReflTransGen (fun p c => c ∈ d.children p) root n := by
  induction n using Nat.strongRecOn with
  | ind n ih =>
    cases hp : d.parent? n with
    | none =>
      rw [(parent?_eq_none_iff h hn).mp hp]
    | some p =>
      have hlt : p < n := IsParent.lt h hp
      exact (ih p hlt (Nat.lt_trans hlt hn)).tail ((mem_children_iff h).mpr hp)

/-! ### Refusals -/

/-- The node that an operation is applied to. -/
def Operation.target : Operation → NodeId
  | .append parent _ => parent
  | .appendSpec parent _ => parent
  | .setId n _ => n
  | .setClasses n _ => n
  | .setText n _ => n

/-- Exactly the operations on nodes that are not there are refused. -/
theorem Operation.outcome?_eq_none_iff (d : Document) (op : Operation) :
    op.outcome? d = none ↔ d.size ≤ op.target := by
  have hrefused : ∀ n, ¬d.contains n = true ↔ d.size ≤ n := by
    intro n
    rw [contains_iff, Nat.not_lt]
  cases op <;>
    simp only [outcome?, append?, appendSpec?, setId?, setClasses?, setText?, target,
      Option.map_eq_none_iff, ite_eq_right_iff, reduceCtorEq, imp_false, hrefused]

theorem Operation.run_of_refused {op : Operation} (h : d.size ≤ op.target) : op.run d = d := by
  unfold run
  rw [(outcome?_eq_none_iff d op).mpr h]
  rfl

/-! ### The tree -/

/-- A document is a tree with the document root on top. -/
structure IsTree (d : Document) : Prop where
  /-- Only the document root has no parent. -/
  parent?_eq_none_iff : ∀ n < d.size, d.parent? n = none ↔ n = root
  /-- A parent has a smaller number and is a node of the document. -/
  parent_lt : ∀ n p, d.parent? n = some p → p < n ∧ p < d.size
  /-- A node is listed among the children of its parent, exactly once, and nowhere else. -/
  count_children : ∀ p c, (d.children p).count c = if d.parent? c = some p then 1 else 0
  children_sorted : ∀ n, (d.children n).Pairwise (· < ·)
  /-- No link that is stored is dropped when it is handed out. -/
  links : ∀ n e, d.element? n = some e →
    d.parent? n = e.parent ∧ d.children n = e.children.toList
  /-- A way up goes from parent to parent and ends at the document root, -/
  lineage : ∀ n < d.size, (d.lineage n).IsChain (fun m p => d.parent? m = some p) ∧
    d.lineage n = (d.lineage n).takeWhile (fun m => !d.isRoot m) ++ [root]
  /-- and is not cut short by the bound on its length. -/
  climb : ∀ n k, n < k → d.climb k (some n) = d.lineage n
  /-- Paths and searches upwards go all the way. -/
  path : ∀ n < d.size, n ≠ root →
    d.path n = " > ".intercalate ((d.lineage n).dropLast.reverse.map d.segment)
  upTo_root : ∀ n < d.size, upTo root (d.lineage n) = d.lineage n
  /-- Every node is reached from the document root over children. -/
  reached : ∀ n < d.size, Relation.ReflTransGen (fun p c => c ∈ d.children p) root n

theorem WellFormed.isTree (h : WellFormed d) : IsTree d where
  parent?_eq_none_iff _ hn := Document.parent?_eq_none_iff h hn
  parent_lt n p hp := by
    have hlt : p < n := IsParent.lt h hp
    exact ⟨hlt, Nat.lt_trans hlt (IsParent.contains h hp)⟩
  count_children := Document.count_children h
  children_sorted := pairwise_children h
  links _ _ he := ⟨parent?_eq h he, children_eq h he⟩
  lineage n hn := ⟨isChain_lineage h n, lineage_eq_takeWhile h hn⟩
  climb _ _ hk := climb_eq_lineage h hk
  path _ hn hne := path_eq h hn hne
  upTo_root _ hn := upTo_root_lineage h hn
  reached _ hn := reflTransGen_children h hn

/-- **Main theorem**: every reachable document is a tree, and an operation is refused exactly if
    the document does not have its node, in which case the document stays as it is. -/
theorem isTree_and_refuses_of_reachable (h : Reachable d) :
    IsTree d ∧ ∀ op : Operation, (op.outcome? d = none ↔ d.size ≤ op.target) ∧
      (d.size ≤ op.target → op.run d = d) := by
  refine ⟨h.wellFormed.isTree, ?_⟩
  intro op
  exact ⟨op.outcome?_eq_none_iff d, Operation.run_of_refused⟩

/-- A list that has been decorated, appended to below its root, and appended to in vain. -/
def grownList : Document :=
  (Operation.append 9 "p").run ((Operation.appendSpec 0 ⟨"nav", none, none, none, []⟩).run
    ((Operation.setId 0 (some "page")).run
      (.ofSpec ⟨"ul", none, none, none, [⟨"li", none, some "item", none, []⟩]⟩)))

theorem isTree_grownList :
    grownList.Reachable ∧ IsTree grownList ∧ grownList.size ≤ 9 ∧
      (Operation.setText 9 none).run grownList = grownList := by
  have hd : grownList.Reachable := .step _ (.step _ (.step _ (.ofSpec _)))
  have hsize : grownList.size ≤ 9 := by decide
  obtain ⟨htree, hoperations⟩ := isTree_and_refuses_of_reachable hd
  exact ⟨hd, htree, hsize, (hoperations (.setText 9 none)).2 hsize⟩

end TreeQuery.Document
