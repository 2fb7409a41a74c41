import TreeQuery.Proofs.Document.Ancestry
import TreeQuery.Search

/-! # Constraints on ancestors — the greedy walk misses nothing

    A query tests the ancestors of a node in one walk upwards: the nearest
    constraint takes the first ancestor that satisfies it, the next one goes on
    from there, and no choice is ever taken back. The walk nevertheless finds
    every assignment there is:

    * **Exchange**: if some choice of nodes from a list satisfies the criteria in
      order, giving the first criterion the first node it can have does no harm.
    * **Descendant semantics**: a node answers a query iff it satisfies the key
      and the constraints are satisfied by nodes each of which stands above the
      next, the last one above the node.
-/

namespace TreeQuery

namespace Document

/-! ### The walk along a list -/

theorem satisfiesInOrder_nil (d : Document) (ns : List NodeId) :
    d.satisfiesInOrder [] ns = true := by
  unfold satisfiesInOrder
  rfl

theorem satisfiesInOrder_cons_nil (d : Document) (c : Criterion) (cs : List Criterion) :
    d.satisfiesInOrder (c :: cs) [] = false := rfl

theorem satisfiesInOrder_cons_cons (d : Document) (c : Criterion) (cs : List Criterion)
    (n : NodeId) (ns : List NodeId) :
    d.satisfiesInOrder (c :: cs) (n :: ns) =
      if d.satisfies c n then d.satisfiesInOrder cs ns else d.satisfiesInOrder (c :: cs) ns := rfl

/-- The nodes satisfy the criteria one by one. -/
abbrev SatisfyEach (d : Document) (cs : List Criterion) (ns : List NodeId) : Prop :=
  List.Forall₂ (fun c n => d.satisfies c n = true) cs ns

/-- The greedy walk along a list succeeds exactly if some nodes of the list, in the order of
    the list, satisfy the criteria one by one. -/
theorem satisfiesInOrder_iff (d : Document) (cs : List Criterion) (ns : List NodeId) :
    d.satisfiesInOrder cs ns = true ↔
      ∃ chosen, chosen.Sublist ns ∧ d.SatisfyEach cs chosen := by
  induction ns generalizing cs with
  | nil =>
    cases cs with
    | nil =>
      rw [satisfiesInOrder_nil]
      exact ⟨fun _ => ⟨[], .slnil, .nil⟩, fun _ => rfl⟩
    | cons c cs =>
      rw [satisfiesInOrder_cons_nil]
      constructor
      · intro h
        cases h
      · rintro ⟨chosen, hsub, hsat⟩
        rw [List.sublist_nil.mp hsub] at hsat
        cases hsat
  | cons n ns ih =>
    cases cs with
    | nil =>
      rw [satisfiesInOrder_nil]
      exact ⟨fun _ => ⟨[], List.nil_sublist _, .nil⟩, fun _ => rfl⟩
    | cons c cs =>
      rw [satisfiesInOrder_cons_cons]
      by_cases hn : d.satisfies c n = true
      · rw [if_pos hn, ih cs]
        constructor
        · rintro ⟨chosen, hsub, hsat⟩
          exact ⟨n :: chosen, hsub.cons_cons n, .cons hn hsat⟩
        · -- whichever node the criterion has, the others come after the head of the list
          rintro ⟨chosen, hsub, hsat⟩
          cases hsat with
          | @cons _ m _ chosen _ hrest =>
            exact ⟨chosen, hsub.tail, hrest⟩
      · rw [if_neg hn, ih (c :: cs)]
        constructor
        · rintro ⟨chosen, hsub, hsat⟩
          exact ⟨chosen, hsub.cons n, hsat⟩
        · rintro ⟨chosen, hsub, hsat⟩
          cases hsub with
          | cons _ hsub => exact ⟨chosen, hsub, hsat⟩
          | cons_cons _ hsub =>
            cases hsat with
            | cons hm _ => exact absurd hm hn

end Document

/-! ### Queries -/

namespace Query

variable {d : Document}

theorem ofTokens?_concat (ancestors : List Token) (key : Token) :
    ofTokens? (ancestors ++ [key]) = some ⟨key.criterion, ancestors.map Token.criterion⟩ := by
  unfold ofTokens?
  rw [Token.splitKey?_concat, Option.map_some]

/-- Starting the walk at the parent of a node means walking along its ancestors. -/
theorem holdsFrom_parent? (h : d.WellFormed) (q : Query) (n : NodeId) :
    q.holdsFrom d (d.parent? n) = d.satisfiesInOrder q.constraints.reverse (d.ancestors n) := by
  unfold holdsFrom
  cases hp : d.parent? n with
  | none =>
    rw [Document.ancestors_of_parent?_eq_none hp]
    cases hcs : q.constraints.reverse with
    | nil => rw [Document.satisfiesInOrder_nil, List.reverse_eq_nil_iff.mp hcs, List.isEmpty_nil]
    | cons c cs =>
      have hne : q.constraints ≠ [] := by
        intro hnil
        rw [hnil, List.reverse_nil] at hcs
        cases hcs
      rw [Document.satisfiesInOrder_cons_nil, List.isEmpty_eq_false_iff.mpr hne]
  | some p =>
    show d.satisfiesInOrder q.constraints.reverse (d.lineage p) = _
    rw [Document.ancestors_of_isParent h hp, Document.lineage_eq]

/-- The ancestors of a node satisfy the constraints of a query, each a node of its own and in
    the order of the constraints. -/
theorem holdsFrom_iff_exists_chain (h : d.WellFormed) (q : Query) (n : NodeId) :
    q.holdsFrom d (d.parent? n) = true ↔
      ∃ as, d.SatisfyEach q.constraints as ∧ (as ++ [n]).IsChain d.IsAbove := by
  rw [holdsFrom_parent? h, Document.satisfiesInOrder_iff]
  constructor
  · rintro ⟨chosen, hsub, hsat⟩
    refine ⟨chosen.reverse, List.forall₂_reverse_iff.mp (by simpa using hsat), ?_⟩
    have hchain := (Document.sublist_ancestors_iff h).mp hsub
    rw [← List.isChain_reverse]
    simpa using hchain
  · rintro ⟨as, hsat, hchain⟩
    refine ⟨as.reverse, (Document.sublist_ancestors_iff h).mpr ?_,
      List.forall₂_reverse_iff.mpr hsat⟩
    rw [← List.isChain_reverse] at hchain
    simpa using hchain

/-- **Descendant semantics.** On every reachable document, a node answers the query that some
    tokens spell iff it satisfies the key and there are nodes, one for each token before the
    key, such that every one of them satisfies its token and stands above the next, the last
    one above the node itself. -/
theorem isAnsweredBy_iff_exists_chain {d : Document} (hd : d.Reachable)
    (ancestors : List Token) (key : Token) (n : NodeId) :
    ∃ q, ofTokens? (ancestors ++ [key]) = some q ∧
      (q.isAnsweredBy d n = true ↔
        d.satisfies key.criterion n = true ∧
        ∃ as : List NodeId,
          List.Forall₂ (fun t a => d.satisfies t.criterion a = true) ancestors as ∧
          (as ++ [n]).IsChain d.IsAbove) := by
  refine ⟨_, ofTokens?_concat ancestors key, ?_⟩
  unfold isAnsweredBy
  rw [Bool.and_eq_true, holdsFrom_iff_exists_chain hd.wellFormed]
  simp only [List.forall₂_map_left_iff]

/-- In a list inside a list, the item has an ancestor for each of two equal constraints. -/
theorem isAnsweredBy_nested_list :
    (Document.ofSpec ⟨"ul", none, none, none, [⟨"ul", none, none, none,
      [⟨"li", none, none, none, []⟩]⟩]⟩).Reachable ∧
    ∃ q, ofTokens? ([⟨"ul", .name⟩, ⟨"UL", .name⟩] ++ [⟨"li", .name⟩]) = some q ∧
      q.isAnsweredBy (Document.ofSpec ⟨"ul", none, none, none, [⟨"ul", none, none, none,
        [⟨"li", none, none, none, []⟩]⟩]⟩) 3 = true := by
  obtain ⟨q, hq, hiff⟩ := isAnsweredBy_iff_exists_chain (.ofSpec ⟨"ul", none, none, none,
    [⟨"ul", none, none, none, [⟨"li", none, none, none, []⟩]⟩]⟩)
    [⟨"ul", .name⟩, ⟨"UL", .name⟩] ⟨"li", .name⟩ 3
  refine ⟨.ofSpec _, q, hq, hiff.mpr ⟨by decide, [1, 2], ?_, ?_⟩⟩
  · exact .cons (by decide) (.cons (by decide) .nil)
  · have hparent : Document.IsAbove (Document.ofSpec ⟨"ul", none, none, none,
        [⟨"ul", none, none, none, [⟨"li", none, none, none, []⟩]⟩]⟩) 1 2 := .single (by rfl)
    exact .cons_cons hparent (.cons_cons (.single (by rfl)) (.singleton 3))

end Query

end TreeQuery
