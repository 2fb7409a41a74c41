import TreeQuery.Proofs.Document.Growth
import TreeQuery.Proofs.Search.Evaluation

/-! # Searches in growing documents — appending disturbs no result

    What a selector finds depends on elements, on ways up and on the document
    order. All three stay as they are for old nodes when elements are appended:

    * **Single nodes**: an old node answers tokens iff it did before, whatever
      ids are brought in.
    * **Finders**: the old nodes among the candidates are the old candidates, if
      no id that is brought in has an old carrier. An id would else have a new
      first carrier.
    * **Engines**: hence searches and walks upwards report the same old nodes.
-/

namespace TreeQuery

namespace Document

variable {base d : Document} {allowed : String → Prop}

/-! ### Single nodes -/

theorem Grows.satisfies_eq (h : Grows base allowed d) (c : Criterion) {n : NodeId}
    (hn : n < base.size) : d.satisfies c n = base.satisfies c n := by
  obtain ⟨e, he⟩ := exists_element? hn
  obtain ⟨e', he', heq, -⟩ := h.exists_gains he
  unfold satisfies
  rw [he, he', heq]
  cases c <;> rfl

theorem Grows.satisfiesInOrder_eq (h : Grows base allowed d) (cs : List Criterion)
    {ns : List NodeId} (hns : ∀ n ∈ ns, n < base.size) :
    d.satisfiesInOrder cs ns = base.satisfiesInOrder cs ns := by
  induction ns generalizing cs with
  | nil => cases cs <;> rfl
  | cons n ns ih =>
    have hrest := fun cs => ih cs fun m hm => hns m (List.mem_cons_of_mem n hm)
    cases cs with
    | nil => rfl
    | cons c cs =>
      rw [satisfiesInOrder_cons_cons, satisfiesInOrder_cons_cons, hrest, hrest,
        h.satisfies_eq c (hns n List.mem_cons_self)]

theorem upTo_sublist (stop : NodeId) (ns : List NodeId) : (upTo stop ns).Sublist ns := by
  induction ns with
  | nil => exact .slnil
  | cons n ns ih =>
    unfold upTo
    split
    · exact List.singleton_sublist.mpr List.mem_cons_self
    · exact ih.cons_cons n

/-- The way up from an old node leads over old nodes. -/
theorem lt_size_of_mem_lineage (h : WellFormed base) {n m : NodeId} (hn : n < base.size)
    (hm : m ∈ base.lineage n) : m < base.size := by
  rw [lineage_eq] at hm
  rcases List.mem_cons.mp hm with rfl | hm
  · exact hn
  · have hlt : m < n := IsAbove.lt h ((mem_ancestors_iff h).mp hm)
    exact Nat.lt_trans hlt hn

section

variable (h : Grows base allowed d) (hbase : WellFormed base) (hd : WellFormed d)

include h hbase hd

/-- An old node answers a query iff it did before. -/
theorem Grows.isAnsweredBy_eq (q : Query) {n : NodeId} (hn : n < base.size) :
    q.isAnsweredBy d n = q.isAnsweredBy base n := by
  have hlineage := h.lineage_eq hbase hd hn
  rw [Document.lineage_eq, Document.lineage_eq, List.cons.injEq] at hlineage
  have hold : ∀ m ∈ base.ancestors n, m < base.size := fun m hm =>
    lt_size_of_mem_lineage hbase hn (Document.lineage_eq base n ▸ List.mem_cons_of_mem n hm)
  unfold Query.isAnsweredBy
  rw [Query.holdsFrom_parent? hd, Query.holdsFrom_parent? hbase, hlineage.2,
    h.satisfiesInOrder_eq _ hold, h.satisfies_eq q.key hn]

/-! ### Finders -/

omit h hbase hd in
/-- If the members of a list that satisfy a predicate are all old or all new, the first of them is
    the first old one, or there is no old one. -/
theorem filter_toList_find? {p old : NodeId → Bool} {l : List NodeId}
    (hp : ∀ m ∈ l, ∀ m' ∈ l, p m = true → p m' = true → old m = true → old m' = true) :
    (l.find? p).toList.filter old = ((l.filter p).filter old).head?.toList := by
  rw [← List.head?_filter]
  cases hfiltered : l.filter p with
  | nil => rfl
  | cons m ms =>
    have hmem : ∀ m' ∈ m :: ms, m' ∈ l ∧ p m' = true := by
      intro m' hm'
      rw [← hfiltered] at hm'
      exact List.mem_filter.mp hm'
    obtain ⟨hm, hpm⟩ := hmem m List.mem_cons_self
    rw [List.head?_cons, Option.toList_some]
    by_cases hold : old m = true
    · rw [List.filter_cons_of_pos hold, List.filter_cons_of_pos hold]
      rfl
    · have hnone : ms.filter old = [] := by
        rw [List.filter_eq_nil_iff]
        intro m' hm' hold'
        obtain ⟨hm', hpm'⟩ := hmem m' (List.mem_cons_of_mem m hm')
        exact hold (hp m' hm' m hm hpm' hpm hold')
      rw [List.filter_cons_of_neg hold, List.filter_cons_of_neg hold, hnone]
      rfl

omit h hbase hd in
/-- Two properties that agree on old nodes pick the same old nodes from a list. -/
theorem filter_filter_contains {p p' : NodeId → Bool} (hp : ∀ n < base.size, p n = p' n)
    (l : List NodeId) :
    (l.filter p).filter base.contains = (l.filter base.contains).filter p' := by
  rw [List.filter_filter, List.filter_filter]
  refine List.filter_congr fun n _ => ?_
  cases hold : base.contains n with
  | false => rw [Bool.false_and, Bool.and_false]
  | true => rw [Bool.true_and, Bool.and_true, hp n (contains_iff.mp hold)]

/-- Below an old node, the old nodes that satisfy a criterion are those that did before. -/
theorem Grows.filter_satisfies_descendants {root : NodeId} (hroot : root < base.size)
    (c : Criterion) :
    ((d.descendants root).filter (d.satisfies c)).filter base.contains =
      (base.descendants root).filter (base.satisfies c) := by
  rw [filter_filter_contains fun n hn => h.satisfies_eq c hn,
    h.filter_descendants hbase hd hroot]

/-- The first carrier of an id is found again, if an id that is brought in has no old carrier. -/
theorem Grows.filter_findById? {root : NodeId} (hroot : root < base.size) (key : String)
    (hids : ∀ key, allowed key → ∀ m, ¬base.hasId key m = true) :
    (d.findById? root key).toList.filter base.contains = (base.findById? root key).toList := by
  have hold := h.filter_satisfies_descendants hbase hd hroot (.id key)
  unfold findById?
  rw [filter_toList_find?, ← List.head?_filter]
  · exact congrArg (·.head?.toList) hold
  · -- a new carrier would make this one of the ids that were brought in
    intro m _ m' _ hm hm' hcontains
    have hcarrier : base.hasId key m = true := by
      rw [← hm]
      exact (h.satisfies_eq (.id key) (contains_iff.mp hcontains)).symm
    refine contains_iff.mpr (Nat.lt_of_not_le fun hnew => ?_)
    obtain ⟨e, he, hkey⟩ := Option.bind_eq_some_iff.mp (hasId_iff.mp hm')
    exact hids key (h.allowed_of_new hnew he hkey) m hcarrier

/-- The old candidates are found again, if an id that is brought in has no old carrier. -/
theorem Grows.filter_find (c : Criterion) {root : NodeId} (hroot : root < base.size)
    (hids : ∀ key, allowed key → ∀ m, ¬base.hasId key m = true) :
    (d.find c root).filter base.contains = base.find c root := by
  have htag : ∀ tag, ∀ n < base.size, d.hasTag tag n = base.hasTag tag n :=
    fun tag n hn => h.satisfies_eq (.name tag) hn
  cases c with
  | id key => exact h.filter_findById? hbase hd hroot key hids
  | name tag => exact h.filter_satisfies_descendants hbase hd hroot (.name tag)
  | className token => exact h.filter_satisfies_descendants hbase hd hroot (.className token)
  | nameAndId tag key =>
    show ((d.findById? root key).toList.filter (d.hasTag tag)).filter base.contains = _
    rw [filter_filter_contains (htag tag), h.filter_findById? hbase hd hroot key hids]
    rfl
  | nameAndClass tag token =>
    show ((d.findByClass root token).filter (d.hasTag tag)).filter base.contains = _
    rw [filter_filter_contains (htag tag)]
    exact congrArg (List.filter (base.hasTag tag))
      (h.filter_satisfies_descendants hbase hd hroot (.className token))

end

end Document

/-! ### Queries -/

namespace Query

variable {base d : Document} {allowed : String → Prop} (h : base.Grows allowed d)
  (hbase : base.WellFormed) (hd : d.WellFormed)

include h hbase hd

theorem filter_answersTo (tokens : List Token) {root : NodeId} (hroot : root < base.size)
    (hids : ∀ key, allowed key → ∀ m, ¬base.hasId key m = true) :
    (answersTo tokens d (some root)).filter base.contains = answersTo tokens base (some root) := by
  unfold answersTo
  cases ofTokens? tokens with
  | none => rfl
  | some q =>
    show (q.answers d (some root)).filter base.contains = q.answers base (some root)
    rw [answers_eq_filter_find, answers_eq_filter_find,
      Document.filter_filter_contains fun n hn => h.isAnsweredBy_eq hbase hd q hn,
      h.filter_find hbase hd q.key hroot hids]

theorem closestTo?_eq (tokens : List Token) {n : NodeId} (hn : n < base.size) (root : NodeId) :
    closestTo? tokens d n root = closestTo? tokens base n root := by
  have hsame : ∀ m ∈ Document.upTo root (base.lineage n),
      isAnsweredTo tokens d m = isAnsweredTo tokens base m := by
    intro m hm
    have hold := Document.lt_size_of_mem_lineage hbase hn ((Document.upTo_sublist _ _).subset hm)
    unfold isAnsweredTo
    cases ofTokens? tokens with
    | none => rfl
    | some q => exact h.isAnsweredBy_eq hbase hd q hold
  rw [closestTo?_eq_find?, closestTo?_eq_find?, h.lineage_eq hbase hd hn, ← List.head?_filter,
    ← List.head?_filter, List.filter_congr hsame]

end Query

/-! ### Engines -/

namespace Engine

/-- Searching a document that has grown finds, of the old nodes, those that were found before. -/
def FindsAgain (e : Engine) (selector : String) (root : NodeId) (base d : Document) : Prop :=
  ∃ found found', (e.search base selector (some root)).outcome = .ok found ∧
    (e.search d selector (some root)).outcome = .ok found' ∧
    found'.filter base.contains = found

/-- Going up in a document that has grown finds the node that was found before. -/
def MeetsAgain (e : Engine) (selector : String) (n root : NodeId) (base d : Document) : Prop :=
  ∃ closest, (e.closest? base n selector root).outcome = .ok closest ∧
    (e.closest? d n selector root).outcome = .ok closest

section

variable {e : Engine} {selector : String} {tokens : List Token}
  (hselector : (e.tokenize selector).outcome = .ok tokens) {base d : Document}
  {allowed : String → Prop} (hbase : base.Reachable) (h : base.Grows allowed d)

include hselector hbase h

theorem findsAgain_of_grows {root : NodeId} (hroot : root < base.size)
    (hids : ∀ key, allowed key → ∀ m, ¬base.hasId key m = true) :
    e.FindsAgain selector root base d :=
  ⟨_, _, outcome_search hselector base _, outcome_search hselector d _,
    Query.filter_answersTo h hbase.wellFormed (h.built hbase.built).wellFormed tokens hroot hids⟩

theorem meetsAgain_of_grows {n : NodeId} (hn : n < base.size) (root : NodeId) :
    e.MeetsAgain selector n root base d := by
  refine ⟨_, outcome_closest? hselector base n root, ?_⟩
  rw [outcome_closest? hselector,
    Query.closestTo?_eq h hbase.wellFormed (h.built hbase.built).wellFormed tokens hn]

end

/-- **Main theorem**: when a subtree is appended to a reachable document, going up from an old node
    meets what it met before, and if none of the ids in the subtree has a carrier yet, searching
    below an old node finds the old nodes that it found before, in the same order. Appending a
    single element does neither any harm. -/
theorem findsAgain_and_meetsAgain_of_append {base : Document} (hbase : base.Reachable)
    {parent : NodeId} (hparent : parent < base.size) (e : Engine) {selector : String}
    {tokens : List Token} (hselector : (e.tokenize selector).outcome = .ok tokens)
    {n root : NodeId} (hn : n < base.size) (hroot : root < base.size) :
    (∀ spec, ∃ node d, base.appendSpec? parent spec = some (node, d) ∧
      ((∀ key ∈ spec.ids, ∀ m, ¬base.hasId key m = true) → e.FindsAgain selector root base d) ∧
      e.MeetsAgain selector n root base d) ∧
    (∀ tag, ∃ node d, base.append? parent tag = some (node, d) ∧
      e.FindsAgain selector root base d ∧ e.MeetsAgain selector n root base d) := by
  have hcontains : base.contains parent = true := Document.contains_iff.mpr hparent
  constructor
  · intro spec
    have hgrows : base.Grows (· ∈ spec.ids) (base.graft parent spec) :=
      Document.grows_graft .refl hparent spec fun _ hkey => hkey
    exact ⟨_, _, if_pos hcontains, findsAgain_of_grows hselector hbase hgrows hroot,
      meetsAgain_of_grows hselector hbase hgrows hn root⟩
  · intro tag
    have hgrows : base.Grows (fun _ => False) (base.push parent tag) := .push tag .refl hparent
    exact ⟨_, _, if_pos hcontains,
      findsAgain_of_grows hselector hbase hgrows hroot fun _ hkey => hkey.elim,
      meetsAgain_of_grows hselector hbase hgrows hn root⟩

/-- Two lists, one behind the other. -/
def twoLists : Document :=
  .ofSpec ⟨"body", none, none, none, [
    ⟨"ul", some "a", none, none, [⟨"li", none, some "item", none, []⟩]⟩,
    ⟨"ul", some "b", none, none, [⟨"li", none, some "item", none, []⟩]⟩]⟩

/-- An item with an id of its own, appended to the first list, does not disturb the second. -/
theorem findsAgain_twoLists :
    twoLists.Reachable ∧ (2 : NodeId) < twoLists.size ∧ (5 : NodeId) < twoLists.size ∧
    ∃ (e : Engine) (node : NodeId) (d : Document),
      (e.tokenize "ul .item").outcome = .ok [⟨"ul", .name⟩, ⟨".item", .className⟩] ∧
      twoLists.appendSpec? 2 ⟨"li", some "c", some "item", none, []⟩ = some (node, d) ∧
      (∀ key ∈ (⟨"li", some "c", some "item", none, []⟩ : ElementSpec).ids,
        ∀ m, ¬twoLists.hasId key m = true) ∧
      e.FindsAgain "ul .item" 1 twoLists d ∧ e.MeetsAgain "ul .item" 5 1 twoLists d := by
  have hd : twoLists.Reachable := .ofSpec _
  have hparent : (2 : NodeId) < twoLists.size := by decide
  have hn : (5 : NodeId) < twoLists.size := by decide
  obtain ⟨e, he⟩ := exists_standard .strict
  have hselector : (e.tokenize "ul .item").outcome =
      .ok [⟨"ul", .name⟩, ⟨".item", .className⟩] := by
    refine outcome_tokenize_standard he (Journal.eq_ok_of_toOption ?_)
    decide +kernel
  have hids : ∀ key ∈ (⟨"li", some "c", some "item", none, []⟩ : ElementSpec).ids,
      ∀ m, ¬twoLists.hasId key m = true := by
    intro key hkey m hm
    obtain rfl : key = "c" := by simpa [ElementSpec.ids, ElementSpec.idsOfAll] using hkey
    have hsize : m < twoLists.size := Document.lt_size_of_satisfies (c := .id "c") hm
    have hnone : ∀ m < twoLists.size, ¬twoLists.hasId "c" m = true := by decide
    exact hnone m hsize hm
  obtain ⟨hspec, -⟩ := findsAgain_and_meetsAgain_of_append hd hparent e hselector hn
    (show (1 : NodeId) < twoLists.size by decide)
  obtain ⟨node, d, happend, hfinds, hmeets⟩ := hspec ⟨"li", some "c", some "item", none, []⟩
  exact ⟨hd, hparent, hn, e, node, d, hselector, happend, hids, hfinds hids, hmeets⟩

end Engine

end TreeQuery
