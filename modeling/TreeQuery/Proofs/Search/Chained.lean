import TreeQuery.Proofs.Search.Evaluation

/-! # Chained searches — searching below the first find

    A selection is searched further below its first node. A selector of two parts
    looks for the same nodes in one go, but it knows nothing of that node: any
    node that answers the first part may stand above what it finds.

    * **Below an answer**: under a node that answers some tokens, one more token
      is answered exactly by the nodes that satisfy it.
    * **Chains**: the second of two chained searches finds what the search for
      both parts finds below the first node of the first search.
-/

namespace TreeQuery

namespace Query

variable {d : Document} {tokens : List Token}

/-! ### Below an answer -/

/-- A single token has no constraints. -/
theorem isAnsweredTo_singleton (h : d.WellFormed) (t : Token) (n : NodeId) :
    isAnsweredTo [t] d n = d.satisfies t.criterion n := by
  have hconcat := isAnsweredTo_concat [] t d n
  rw [List.nil_append] at hconcat
  rw [hconcat, isAnsweredBy, holdsFrom_parent? h]
  show (_ && d.satisfiesInOrder [] _) = _
  rw [Document.satisfiesInOrder_nil, Bool.and_true]

/-- Below a node that answers some tokens, the constraints that these tokens are to one more
    token are met by that node and the nodes above it. -/
theorem isAnsweredTo_append_of_isAbove (h : d.WellFormed) {f n : NodeId}
    (hf : isAnsweredTo tokens d f = true) (hfn : d.IsAbove f n) (t : Token) :
    isAnsweredTo (tokens ++ [t]) d n = d.satisfies t.criterion n := by
  rcases List.eq_nil_or_concat' tokens with rfl | ⟨ancestors, key, rfl⟩
  · cases hf
  rw [isAnsweredTo_concat, isAnsweredBy, Bool.and_eq_true, holdsFrom_iff_exists_chain h] at hf
  obtain ⟨hkey, as, hsatisfy, hchain⟩ := hf
  have hholds : holdsFrom ⟨t.criterion, (ancestors ++ [key]).map Token.criterion⟩ d
      (d.parent? n) = true := by
    rw [holdsFrom_iff_exists_chain h]
    refine ⟨as ++ [f], ?_, ?_⟩
    · rw [List.map_append]
      exact List.rel_append hsatisfy (.cons hkey .nil)
    · rw [List.isChain_append]
      refine ⟨hchain, .singleton n, ?_⟩
      intro x hx y hy
      rw [List.getLast?_concat, Option.mem_some_iff] at hx
      rw [List.head?_cons, Option.mem_some_iff] at hy
      rwa [← hx, ← hy]
  rw [isAnsweredTo_concat, isAnsweredBy, hholds, Bool.and_true]

/-! ### Chains -/

/-- What one more token finds below a node that answers some tokens is what all tokens together
    find there, wherever the search began. -/
theorem answersTo_singleton_eq_filter (h : d.WellFormed) (hids : d.UniqueIds) {root f : NodeId}
    (hf : f ∈ answersTo tokens d (some root)) (t : Token) :
    answersTo [t] d (some f) =
      (answersTo (tokens ++ [t]) d (some root)).filter (· ∈ d.descendants f) := by
  obtain ⟨habove, hanswered⟩ := (mem_answersTo_iff h hids).mp hf
  rw [answersTo_eq_filter h hids, answersTo_eq_filter h hids, List.filter_filter]
  simp only [Bool.and_comm (decide _)]
  rw [← List.filter_filter, Document.filter_descendants h habove]
  refine List.filter_congr fun n hn => ?_
  rw [isAnsweredTo_singleton h, isAnsweredTo_append_of_isAbove h hanswered
    ((Document.mem_descendants_iff h).mp hn)]

end Query

/-- **Main theorem**: on every reachable document with unique ids, if one selector is a second one
    and a single token behind it, then selecting the second and searching further for the token
    finds what the one selector finds below the first node selected, in the same order. It finds
    nothing if nothing has been selected. -/
theorem Engine.find_select_eq_filter_search {d : Document} (hd : d.Reachable)
    (hids : d.UniqueIds) (e : Engine) (root : Option NodeId) {a b : String} {tokens : List Token}
    {t : Token} (ha : (e.tokenize a).outcome = .ok tokens) (hb : (e.tokenize b).outcome = .ok [t])
    (hab : (e.tokenize (a ++ " " ++ b)).outcome = .ok (tokens ++ [t])) :
    ∃ first second found, (e.select d a root).outcome = .ok first ∧
      (e.search d a root).outcome = .ok first.nodes ∧
      (e.find d first b).outcome = .ok second ∧
      (e.search d (a ++ " " ++ b) root).outcome = .ok found ∧
      (∀ f, first.first? = some f →
        second.nodes = found.filter (· ∈ d.descendants f)) ∧
      (first.nodes = [] → second.nodes = []) := by
  have h := hd.wellFormed
  refine ⟨_, _, _, outcome_select ha d root, outcome_search ha d root, outcome_select hb d _,
    outcome_search hab d root, ?_, ?_⟩
  · intro f hf
    have hmem : f ∈ Query.answersTo tokens d root := List.mem_of_head? hf
    cases root with
    | none =>
      rw [Query.answersTo_none] at hmem
      cases hmem
    | some r =>
      show Query.answersTo [t] d _ = _
      rw [hf]
      exact Query.answersTo_singleton_eq_filter h hids hmem t
  · intro hnone
    have hfirst : Selection.first? ⟨a, Query.answersTo tokens d root⟩ = none :=
      List.head?_eq_none_iff.mpr hnone
    show Query.answersTo [t] d _ = []
    rw [hfirst, Query.answersTo_none]

/-- A page with two sections, one of them in the other. -/
def nestedSections : Document :=
  .ofSpec ⟨"body", none, none, none, [⟨"section", none, some "news", none,
    [⟨"h2", none, none, none, []⟩, ⟨"section", none, some "news", none,
      [⟨"h2", none, none, none, []⟩]⟩]⟩, ⟨"h2", none, none, none, []⟩]⟩

/-- The two headings below the first section are found, each of them once. -/
theorem Engine.find_nestedSections :
    nestedSections.Reachable ∧ nestedSections.UniqueIds ∧
    ∃ (e : Engine) (first second : Selection) (found : List NodeId),
      (e.tokenize "section.news").outcome = .ok [⟨"section.news", .nameAndClass⟩] ∧
      (e.tokenize "h2").outcome = .ok [⟨"h2", .name⟩] ∧
      (e.tokenize ("section.news" ++ " " ++ "h2")).outcome =
        .ok ([⟨"section.news", .nameAndClass⟩] ++ [⟨"h2", .name⟩]) ∧
      (e.select nestedSections "section.news" (some 0)).outcome = .ok first ∧
      (e.find nestedSections first "h2").outcome = .ok second ∧ second.nodes = [3, 5] ∧
      (e.search nestedSections ("section.news" ++ " " ++ "h2") (some 0)).outcome = .ok found ∧
      second.nodes = found.filter (· ∈ nestedSections.descendants 2) := by
  have hd : nestedSections.Reachable := .ofSpec _
  have hids : nestedSections.UniqueIds := by decide
  obtain ⟨e, he⟩ := exists_standard .strict
  have ha : (e.tokenize "section.news").outcome = .ok [⟨"section.news", .nameAndClass⟩] := by
    refine outcome_tokenize_standard he (Journal.eq_ok_of_toOption ?_)
    decide +kernel
  have hb : (e.tokenize "h2").outcome = .ok [⟨"h2", .name⟩] := by
    refine outcome_tokenize_standard he (Journal.eq_ok_of_toOption ?_)
    decide +kernel
  have hab : (e.tokenize ("section.news" ++ " " ++ "h2")).outcome =
      .ok ([⟨"section.news", .nameAndClass⟩] ++ [⟨"h2", .name⟩]) := by
    refine outcome_tokenize_standard he (Journal.eq_ok_of_toOption ?_)
    decide +kernel
  obtain ⟨first, second, found, hfirst, -, hsecond, hfound, hbelow, -⟩ :=
    find_select_eq_filter_search hd hids e (some 0) ha hb hab
  have hsection : first.first? = some 2 := by
    rw [outcome_select ha] at hfirst
    rw [← Except.ok.inj hfirst]
    decide +kernel
  have hheadings : second.nodes = [3, 5] := by
    rw [find, hsection, outcome_select hb] at hsecond
    rw [← Except.ok.inj hsecond]
    decide +kernel
  exact ⟨hd, hids, e, first, second, found, ha, hb, hab, hfirst, hsecond, hheadings, hfound,
    hbelow 2 hsection⟩

end TreeQuery
