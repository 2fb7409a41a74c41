import TreeQuery.Proofs.Document.Preorder
import TreeQuery.Proofs.Search.Constraints

/-! # Candidates — searching from the top agrees with testing each node

    A search produces the candidates for the key of a query with a scan that
    depends on the form of the key, and with constraints it does not test the key
    again. Testing a node looks at the node and its ancestors alone.

    * **Finders**: the candidates for a criterion are the descendants that satisfy
      it, in document order. Only the first carrier of an id is looked at, so with
      an id they are all of them if no two descendants carry it, and always some
      of them.
    * **Searches**: hence the answers below a node are its descendants that answer
      the query when tested alone.
-/

namespace TreeQuery

namespace Document

/-! ### Criteria and the facets of a node -/

theorem satisfies_nameAndId (d : Document) (tag key : String) (n : NodeId) :
    d.satisfies (.nameAndId tag key) n = (d.hasId key n && d.hasTag tag n) := by
  unfold satisfies hasId hasTag
  cases d.element? n <;> rfl

/-- Testing the id and then the tag is testing both. -/
theorem filter_nameAndId (d : Document) (tag key : String) (l : List NodeId) :
    (l.filter (d.hasId key)).filter (d.hasTag tag) =
      l.filter (d.satisfies (.nameAndId tag key)) := by
  rw [List.filter_filter]
  refine List.filter_congr fun n _ => ?_
  rw [Bool.and_comm, satisfies_nameAndId]

/-- Testing a class and then the tag is testing both. -/
theorem filter_nameAndClass (d : Document) (tag token : String) (l : List NodeId) :
    (l.filter (d.hasClass token)).filter (d.hasTag tag) =
      l.filter (d.satisfies (.nameAndClass tag token)) := by
  rw [List.filter_filter]
  refine List.filter_congr fun n _ => ?_
  rw [Bool.and_comm]
  unfold satisfies hasClass hasTag
  cases d.element? n <;> rfl

/-! ### The first carrier of an id -/

theorem toList_find?_sublist_filter (p : NodeId → Bool) (l : List NodeId) :
    (l.find? p).toList.Sublist (l.filter p) := by
  rw [← List.head?_filter]
  cases l.filter p with
  | nil => exact .slnil
  | cons n ns => exact List.singleton_sublist.mpr List.mem_cons_self

/-- If a predicate holds of one member of a list at most, finding and filtering agree. -/
theorem toList_find?_eq_filter {p : NodeId → Bool} {l : List NodeId} (hl : l.Nodup)
    (hp : ∀ m ∈ l, ∀ m' ∈ l, p m = true → p m' = true → m = m') :
    (l.find? p).toList = l.filter p := by
  rw [← List.head?_filter]
  cases hf : l.filter p with
  | nil => rfl
  | cons n ns =>
    cases ns with
    | nil => rfl
    | cons m ms =>
      -- two members would be equal and yet different places of the list
      have hmem : ∀ x ∈ n :: m :: ms, x ∈ l ∧ p x = true := by
        intro x hx
        rw [← hf] at hx
        exact List.mem_filter.mp hx
      have hn := hmem n List.mem_cons_self
      have hm := hmem m (List.mem_cons_of_mem n List.mem_cons_self)
      have hnodup : (n :: m :: ms).Nodup := hf ▸ hl.filter p
      obtain rfl := hp n hn.1 m hm.1 hn.2 hm.2
      exact absurd List.mem_cons_self (List.nodup_cons.mp hnodup).1

/-- At most one node below the root of a search carries the id. -/
def AtMostOneCarrier (d : Document) (root : NodeId) (key : String) : Prop :=
  ∀ m m', d.IsAbove root m → d.IsAbove root m' →
    d.hasId key m = true → d.hasId key m' = true → m = m'

/-! ### Finders -/

variable {d : Document}

theorem toList_findById?_eq_filter (h : WellFormed d) {root : NodeId} {key : String}
    (hkey : d.AtMostOneCarrier root key) :
    (d.findById? root key).toList = (d.descendants root).filter (d.hasId key) := by
  unfold findById?
  refine toList_find?_eq_filter (nodup_descendants h root) fun m hm m' hm' => ?_
  exact hkey m m' ((mem_descendants_iff h).mp hm) ((mem_descendants_iff h).mp hm')

/-- Every candidate satisfies its criterion, and the candidates stand in document order. -/
theorem find_sublist_filter (d : Document) (c : Criterion) (root : NodeId) :
    (d.find c root).Sublist ((d.descendants root).filter (d.satisfies c)) := by
  cases c with
  | id key => exact toList_find?_sublist_filter (d.hasId key) (d.descendants root)
  | name tag => exact .refl _
  | className token => exact .refl _
  | nameAndId tag key =>
    rw [← filter_nameAndId]
    exact (toList_find?_sublist_filter (d.hasId key) (d.descendants root)).filter (d.hasTag tag)
  | nameAndClass tag token =>
    rw [← filter_nameAndClass]
    exact .refl _

/-- The candidates are all descendants that satisfy the criterion, if its id is no stumbling
    block. -/
theorem find_eq_filter (h : WellFormed d) (c : Criterion) (root : NodeId)
    (hkey : ∀ key, c.key? = some key → d.AtMostOneCarrier root key) :
    d.find c root = (d.descendants root).filter (d.satisfies c) := by
  cases c with
  | id key => exact toList_findById?_eq_filter h (hkey key rfl)
  | name tag => rfl
  | className token => rfl
  | nameAndId tag key =>
    show (d.findById? root key).toList.filter (d.hasTag tag) = _
    rw [toList_findById?_eq_filter h (hkey key rfl), filter_nameAndId]
  | nameAndClass tag token => exact filter_nameAndClass d tag token (d.descendants root)

/-- Of the carriers of its id a criterion looks at the first one alone. -/
theorem find_of_key? {c : Criterion} {key : String} (hkey : c.key? = some key) (root : NodeId) :
    d.find c root = (d.findById? root key).toList.filter (d.satisfies c) := by
  have hid : ∀ n ∈ (d.findById? root key).toList, d.hasId key n = true := by
    intro n hn
    exact List.find?_some (Option.mem_toList.mp hn)
  cases c with
  | id other =>
    obtain rfl := Option.some.inj hkey
    exact (List.filter_eq_self.mpr hid).symm
  | nameAndId tag other =>
    obtain rfl := Option.some.inj hkey
    refine List.filter_congr fun n hn => ?_
    rw [satisfies_nameAndId, hid n hn, Bool.true_and]
  | name | className | nameAndClass => cases hkey

/-- A node is the first one in a list that carries an id. -/
def IsFirstCarrier (d : Document) (l : List NodeId) (key : String) (n : NodeId) : Prop :=
  ∃ before after, l = before ++ n :: after ∧ d.hasId key n = true ∧
    ∀ m ∈ before, ¬d.hasId key m = true

theorem findById?_eq_some_iff {root n : NodeId} {key : String} :
    d.findById? root key = some n ↔ d.IsFirstCarrier (d.descendants root) key n := by
  unfold findById? IsFirstCarrier
  rw [List.find?_eq_some_iff_append]
  constructor
  · rintro ⟨hid, before, after, hsplit, hbefore⟩
    exact ⟨before, after, hsplit, hid, fun m hm => by simpa using hbefore m hm⟩
  · rintro ⟨before, after, hsplit, hid, hbefore⟩
    exact ⟨hid, before, after, hsplit, fun m hm => by simpa using hbefore m hm⟩

/-- **Finders agree with the test of single nodes.** Take the nodes below a root of a reachable
    document in pre-order, and the criterion that a text spells as a simple selector of some kind.
    A kind without an id finds exactly those of the nodes that satisfy the criterion. A kind with an
    id finds the first carrier of the id if it satisfies the criterion, and nothing else; these are
    all nodes that satisfy it unless two of the nodes carry the id. Whatever is found satisfies the
    criterion. -/
theorem find_parse_eq_filter_or_first (hd : d.Reachable) (root : NodeId) (kind : Kind)
    (text : String) :
    ∃ c below, c = Criterion.parse kind text ∧
      d.IsPreorder (d.children root) below ∧
      (∀ m, m ∈ below ↔ d.IsAbove root m) ∧
      (kind = .name ∨ kind = .className ∨ kind = .nameAndClass →
        d.find c root = below.filter (d.satisfies c)) ∧
      (kind = .id ∨ kind = .nameAndId → ∃ key, c.key? = some key ∧
        (∀ n, d.IsFirstCarrier below key n →
          d.find c root = if d.satisfies c n then [n] else []) ∧
        ((∀ m ∈ below, ¬d.hasId key m = true) → d.find c root = []) ∧
        (d.AtMostOneCarrier root key → d.find c root = below.filter (d.satisfies c))) ∧
      ∀ n ∈ d.find c root, d.satisfies c n = true := by
  have h := hd.wellFormed
  refine ⟨_, d.descendants root, rfl, isPreorder_descendants h root,
    fun m => mem_descendants_iff h, ?_, ?_, ?_⟩
  · intro hkind
    apply find_eq_filter h
    intro key hkey
    -- such a kind asks for no id
    rcases hkind with rfl | rfl | rfl <;> cases hkey
  · intro hkind
    obtain ⟨key, hkey⟩ : ∃ key, (Criterion.parse kind text).key? = some key := by
      rcases hkind with rfl | rfl <;> exact ⟨_, rfl⟩
    refine ⟨key, hkey, ?_, ?_, ?_⟩
    · intro n hn
      rw [find_of_key? hkey, findById?_eq_some_iff.mpr hn, Option.toList_some,
        List.filter_singleton, Bool.cond_eq_ite]
    · intro hnone
      have hfirst : d.findById? root key = none := List.find?_eq_none.mpr hnone
      rw [find_of_key? hkey, hfirst, Option.toList_none, List.filter_nil]
    · intro hone
      apply find_eq_filter h
      intro other hother
      obtain rfl := Option.some.inj (hkey.symm.trans hother)
      exact hone
  · intro n hn
    exact (List.mem_filter.mp ((find_sublist_filter d _ root).subset hn)).2

/-- A list whose two members carry the same id. -/
def twins : Document :=
  .ofSpec ⟨"ul", none, none, none,
    [⟨"div", some "b", none, none, []⟩, ⟨"li", some "b", none, none, []⟩]⟩

/-- The second member is found by its tag, whatever the case of its letters, but not with its id,
    since the first carrier of the id has another tag. -/
theorem find_parse_twins :
    twins.Reachable ∧ twins.find (.parse .name "LI") 1 = [3] ∧
    twins.satisfies (.parse .nameAndId "li#b") 3 = true ∧
    twins.find (.parse .nameAndId "li#b") 1 = [] := by
  have hd : twins.Reachable := .ofSpec _
  have hbelow : twins.IsPreorder (twins.children 1) [2, 3] :=
    isPreorder_descendants hd.wellFormed 1
  refine ⟨hd, ?_, by decide +kernel, ?_⟩
  · obtain ⟨c, below, rfl, hpreorder, -, hname, -⟩ :=
      find_parse_eq_filter_or_first hd 1 .name "LI"
    rw [hname (.inl rfl), hpreorder.eq hbelow]
    decide +kernel
  · obtain ⟨c, below, rfl, hpreorder, -, -, hid, -⟩ :=
      find_parse_eq_filter_or_first hd 1 .nameAndId "li#b"
    obtain ⟨key, hkey, hfirst, -⟩ := hid (.inr rfl)
    have hcarrier : twins.IsFirstCarrier below key 2 := by
      have hb : (Criterion.parse .nameAndId "li#b").key? = some "b" := by decide +kernel
      rw [hpreorder.eq hbelow, Option.some.inj (hkey.symm.trans hb)]
      exact ⟨[], [3], rfl, by decide, List.forall_mem_nil _⟩
    rw [hfirst 2 hcarrier]
    decide +kernel

end Document

/-! ### Searches -/

namespace Query

variable {d : Document}

/-- A candidate that satisfies the key is accepted iff it answers the query. -/
theorem accepts_eq_isAnsweredBy (q : Query) {n : NodeId} (hn : d.satisfies q.key n = true) :
    q.accepts d n = q.isAnsweredBy d n := by
  unfold accepts isAnsweredBy
  rw [hn, Bool.true_and]
  split
  · -- without constraints the test of a single node asks for the key alone
    next hnil =>
    have hcs : q.constraints = [] := List.isEmpty_iff.mp hnil
    unfold holdsFrom
    rw [hcs]
    cases d.parent? n with
    | none => rfl
    | some p => exact (Document.satisfiesInOrder_nil d _).symm
  · rfl

/-- The answers are the candidates that answer the query. -/
theorem answers_eq_filter_find (q : Query) (root : NodeId) :
    q.answers d (some root) = (d.find q.key root).filter (q.isAnsweredBy d) := by
  unfold answers candidates
  refine List.filter_congr fun n hn => accepts_eq_isAnsweredBy q ?_
  exact (List.mem_filter.mp ((Document.find_sublist_filter d q.key root).subset hn)).2

theorem filter_satisfies_filter (q : Query) (l : List NodeId) :
    (l.filter (d.satisfies q.key)).filter (q.isAnsweredBy d) = l.filter (q.isAnsweredBy d) := by
  rw [List.filter_filter]
  refine List.filter_congr fun n _ => ?_
  unfold isAnsweredBy
  cases d.satisfies q.key n <;> simp

theorem answers_sublist_filter (q : Query) (root : NodeId) :
    (q.answers d (some root)).Sublist ((d.descendants root).filter (q.isAnsweredBy d)) := by
  rw [answers_eq_filter_find, ← filter_satisfies_filter q (d.descendants root)]
  exact (Document.find_sublist_filter d q.key root).filter _

theorem answers_eq_filter_descendants (h : d.WellFormed) (q : Query) (root : NodeId)
    (hkey : ∀ key, q.key.key? = some key → d.AtMostOneCarrier root key) :
    q.answers d (some root) = (d.descendants root).filter (q.isAnsweredBy d) := by
  rw [answers_eq_filter_find, Document.find_eq_filter h q.key root hkey, filter_satisfies_filter]

/-- **Top-down search agrees with the test of single nodes.** On every reachable document, the
    answers below a node are among the nodes below it that answer the query when tested alone,
    listed in pre-order and without repetition. They are all of them unless the key asks for an
    id that two of the nodes below carry. -/
theorem answers_eq_filter_preorder {d : Document} (hd : d.Reachable) (root : NodeId)
    {tokens : List Token} (htokens : tokens ≠ []) :
    ∃ q below, ofTokens? tokens = some q ∧
      d.IsPreorder (d.children root) below ∧
      (∀ m, m ∈ below ↔ d.IsAbove root m) ∧
      ((∀ key, q.key.key? = some key → d.AtMostOneCarrier root key) →
        q.answers d (some root) = below.filter (q.isAnsweredBy d)) ∧
      (q.answers d (some root)).Sublist (below.filter (q.isAnsweredBy d)) ∧
      (q.answers d (some root)).Nodup := by
  have h := hd.wellFormed
  obtain ⟨q, hq⟩ : ∃ q, ofTokens? tokens = some q := by
    rw [← List.dropLast_append_getLast htokens]
    exact ⟨_, ofTokens?_concat _ _⟩
  have hsub := answers_sublist_filter (d := d) q root
  refine ⟨q, d.descendants root, hq, Document.isPreorder_descendants h root,
    fun m => Document.mem_descendants_iff h, answers_eq_filter_descendants h q root, hsub, ?_⟩
  exact hsub.nodup ((Document.nodup_descendants h root).filter _)

/-- A list with two items, the second of which has an id. -/
def listOfTwo : Document :=
  .ofSpec ⟨"ul", none, none, none,
    [⟨"li", none, some "item", none, []⟩, ⟨"li", some "b", some "item", none, []⟩]⟩

/-- The item with the id is found below the list, as the only one that carries the id. -/
theorem answers_listOfTwo :
    listOfTwo.Reachable ∧ [(⟨"ul", .name⟩ : Token), ⟨"li#b", .nameAndId⟩] ≠ [] ∧
    ∃ q below, ofTokens? [⟨"ul", .name⟩, ⟨"li#b", .nameAndId⟩] = some q ∧
      listOfTwo.IsPreorder (listOfTwo.children 0) below ∧
      q.answers listOfTwo (some 0) = below.filter (q.isAnsweredBy listOfTwo) := by
  have hd : listOfTwo.Reachable := .ofSpec _
  have htokens : [(⟨"ul", .name⟩ : Token), ⟨"li#b", .nameAndId⟩] ≠ [] := by decide
  obtain ⟨q, below, hq, hbelow, -, heq, -⟩ := answers_eq_filter_preorder hd 0 htokens
  refine ⟨hd, htokens, q, below, hq, hbelow, heq fun key hkey m m' hm hm' hid hid' => ?_⟩
  have hqkey : q.key.key? = some "b" := by
    rw [← Option.some.inj hq]
    decide
  obtain rfl := Option.some.inj (hqkey.symm.trans hkey)
  have hcarrier : ∀ n < 4, listOfTwo.hasId "b" n = true → n = 3 := by decide
  rw [hcarrier m (hm.contains hd.wellFormed) hid, hcarrier m' (hm'.contains hd.wellFormed) hid']

end Query

end TreeQuery
