import TreeQuery.Proofs.Document.Tree
import TreeQuery.Proofs.Search.Constraints
import TreeQuery.Proofs.Search.Evaluation

/-! # Likeness — what searching cannot tell apart

    Two documents are alike if they have the same nodes in the same places, and
    each node has in both the same id, the same tag up to letter case, and the same
    classes, whatever their order, their number and the blanks between them. The
    texts may differ at will.

    * **Elements**: alike elements meet the same criteria.
    * **Ways**: alike documents have the same ways up and the same document order.
    * **Queries**: every step of a search comes out alike, so the answers do.
    * **Engines**: whatever an engine does on one document, it does on the other.
      The two runs agree in their results, their faults and their reports.
-/

namespace TreeQuery

/-! ### Elements -/

/-- Elements in the same place that have the same id, the same tag up to letter case, and the same
    set of classes. -/
structure Element.Alike (e e' : Element) : Prop where
  parent : e.parent = e'.parent
  children : e.children = e'.children
  id : e.id = e'.id
  tag : e.tag.toList.map Char.toLower = e'.tag.toList.map Char.toLower
  classes : ∀ token, token ∈ e.classes ↔ token ∈ e'.classes

theorem Element.alike_iff {e e' : Element} :
    e.Alike e' ↔ e.parent = e'.parent ∧ e.children = e'.children ∧ e.id = e'.id ∧
      e.tag.toList.map Char.toLower = e'.tag.toList.map Char.toLower ∧
      (∀ token ∈ e.classes, token ∈ e'.classes) ∧ (∀ token ∈ e'.classes, token ∈ e.classes) := by
  constructor
  · intro h
    exact ⟨h.parent, h.children, h.id, h.tag, fun token => (h.classes token).mp,
      fun token => (h.classes token).mpr⟩
  · rintro ⟨hparent, hchildren, hid, htag, hforth, hback⟩
    exact ⟨hparent, hchildren, hid, htag, fun token => ⟨hforth token, hback token⟩⟩

instance : DecidableRel Element.Alike := fun _ _ => decidable_of_iff _ Element.alike_iff.symm

namespace Element.Alike

variable {e e' : Element} (h : e.Alike e')

include h

theorem hasTag_eq (name : String) : e.hasTag name = e'.hasTag name := by
  unfold hasTag
  rw [h.tag]

theorem hasClass_eq (token : String) : e.hasClass token = e'.hasClass token := by
  unfold hasClass
  rw [Bool.eq_iff_iff, List.contains_iff_mem, List.contains_iff_mem]
  exact h.classes token

/-- Alike elements meet the same criteria. -/
theorem isMetBy_eq (c : Criterion) : c.isMetBy e = c.isMetBy e' := by
  cases c with
  | nameAndId tag key =>
    show (e.id == some key && e.hasTag tag) = (e'.id == some key && e'.hasTag tag)
    rw [h.id, h.hasTag_eq]
  | id key =>
    show (e.id == some key) = (e'.id == some key)
    rw [h.id]
  | name tag => exact h.hasTag_eq tag
  | className token => exact h.hasClass_eq token
  | nameAndClass tag token =>
    show (e.hasClass token && e.hasTag tag) = (e'.hasClass token && e'.hasTag tag)
    rw [h.hasClass_eq, h.hasTag_eq]

end Element.Alike

/-- Documents with the same number of nodes and with alike elements throughout. -/
structure Document.Alike (d d' : Document) : Prop where
  size : d.size = d'.size
  element : ∀ {n e e'}, d.element? n = some e → d'.element? n = some e' → e.Alike e'

theorem Document.alike_iff {d d' : Document} :
    d.Alike d' ↔ d.size = d'.size ∧
      ∀ n < d.size, ∀ e ∈ d.element? n, ∀ e' ∈ d'.element? n, e.Alike e' := by
  constructor
  · intro h
    exact ⟨h.size, fun n _ e he e' he' => h.element he he'⟩
  · rintro ⟨hsize, helement⟩
    exact ⟨hsize, fun he he' => helement _ (lt_size_of_element? he) _ he _ he'⟩

instance : DecidableRel Document.Alike := fun _ _ => decidable_of_iff _ Document.alike_iff.symm

namespace Document.Alike

variable {d d' : Document} (h : d.Alike d')

include h

/-- A node has alike elements in both documents, or it has none in either. -/
theorem element?_cases (n : NodeId) :
    (d.element? n = none ∧ d'.element? n = none) ∨
      ∃ e e', d.element? n = some e ∧ d'.element? n = some e' ∧ e.Alike e' := by
  rcases Nat.lt_or_ge n d.size with hn | hn
  · obtain ⟨e, he⟩ := exists_element? hn
    obtain ⟨e', he'⟩ := exists_element? (h.size ▸ hn)
    exact .inr ⟨e, e', he, he', h.element he he'⟩
  · exact .inl ⟨element?_eq_none_iff.mpr hn, element?_eq_none_iff.mpr (h.size ▸ hn)⟩

/-- A test that alike elements pass alike is passed by the same nodes. -/
theorem any_element?_eq {p : Element → Bool} (hp : ∀ {e e' : Element}, e.Alike e' → p e = p e')
    (n : NodeId) : (d.element? n).any p = (d'.element? n).any p := by
  rcases h.element?_cases n with ⟨hnone, hnone'⟩ | ⟨e, e', he, he', halike⟩
  · rw [hnone, hnone']
  · rw [he, he', Option.any_some, Option.any_some, hp halike]

theorem satisfies_eq : d.satisfies = d'.satisfies := by
  funext c n
  exact h.any_element?_eq (fun halike => halike.isMetBy_eq c) n

theorem hasTag_eq : d.hasTag = d'.hasTag := by
  funext name n
  exact h.any_element?_eq (fun halike => halike.hasTag_eq name) n

theorem hasClass_eq : d.hasClass = d'.hasClass := by
  funext token n
  exact h.any_element?_eq (fun halike => halike.hasClass_eq token) n

theorem hasId_eq : d.hasId = d'.hasId := by
  funext key n
  refine h.any_element?_eq (fun {e e'} halike => ?_) n
  rw [halike.id]

/-! ### Ways -/

theorem contains_eq : d.contains = d'.contains := by
  funext n
  unfold contains
  rw [h.size]

theorem parent?_eq : d.parent? = d'.parent? := by
  funext n
  unfold parent?
  rw [h.contains_eq]
  rcases h.element?_cases n with ⟨hnone, hnone'⟩ | ⟨e, e', he, he', halike⟩
  · rw [hnone, hnone']
  · rw [he, he', Option.bind_some, Option.bind_some, halike.parent]

theorem children_eq : d.children = d'.children := by
  funext n
  unfold children
  rw [h.contains_eq]
  rcases h.element?_cases n with ⟨hnone, hnone'⟩ | ⟨e, e', he, he', halike⟩
  · rw [hnone, hnone']
  · rw [he, he']
    show List.filter _ e.children.toList = List.filter _ e'.children.toList
    rw [halike.children]

theorem climb_eq (k : Nat) (start : Option NodeId) : d.climb k start = d'.climb k start := by
  induction k generalizing start with
  | zero => cases start <;> rfl
  | succ k ih =>
    cases start with
    | none => rfl
    | some n => rw [climb, climb, h.parent?_eq, ih]

theorem lineage_eq : d.lineage = d'.lineage := by
  funext n
  exact h.climb_eq (n + 1) (some n)

theorem preorder_eq (k : Nat) (pending : List NodeId) :
    d.preorder k pending = d'.preorder k pending := by
  induction k generalizing pending with
  | zero => rfl
  | succ k ih =>
    cases pending with
    | nil => rfl
    | cons n pending => rw [preorder, preorder, h.children_eq, ih]

theorem descendants_eq : d.descendants = d'.descendants := by
  funext n
  unfold descendants
  rw [h.size, h.children_eq]
  exact h.preorder_eq _ _

/-! ### Queries -/

theorem findById?_eq : d.findById? = d'.findById? := by
  funext root key
  unfold findById?
  rw [h.descendants_eq, h.hasId_eq]

theorem findByTag_eq : d.findByTag = d'.findByTag := by
  funext root name
  unfold findByTag
  rw [h.descendants_eq, h.hasTag_eq]

theorem findByClass_eq : d.findByClass = d'.findByClass := by
  funext root token
  unfold findByClass
  rw [h.descendants_eq, h.hasClass_eq]

/-- Every criterion produces the same candidates. -/
theorem find_eq : d.find = d'.find := by
  funext c root
  cases c with
  | nameAndId tag key =>
    show (d.findById? root key).toList.filter _ = (d'.findById? root key).toList.filter _
    rw [h.findById?_eq, h.hasTag_eq]
  | id key =>
    show (d.findById? root key).toList = (d'.findById? root key).toList
    rw [h.findById?_eq]
  | name tag => exact congrFun (congrFun h.findByTag_eq root) tag
  | className token => exact congrFun (congrFun h.findByClass_eq root) token
  | nameAndClass tag token =>
    show (d.findByClass root token).filter _ = (d'.findByClass root token).filter _
    rw [h.findByClass_eq, h.hasTag_eq]

theorem satisfiesInOrder_eq (cs : List Criterion) (ns : List NodeId) :
    d.satisfiesInOrder cs ns = d'.satisfiesInOrder cs ns := by
  induction ns generalizing cs with
  | nil => cases cs <;> rfl
  | cons n ns ih =>
    cases cs with
    | nil => rfl
    | cons c cs =>
      rw [satisfiesInOrder_cons_cons, satisfiesInOrder_cons_cons, h.satisfies_eq, ih, ih]

theorem holdsFrom_eq (q : Query) (start : Option NodeId) :
    q.holdsFrom d start = q.holdsFrom d' start := by
  cases start with
  | none => rfl
  | some n =>
    show d.satisfiesInOrder _ (d.lineage n) = d'.satisfiesInOrder _ (d'.lineage n)
    rw [h.lineage_eq, h.satisfiesInOrder_eq]

theorem isAnsweredBy_eq (q : Query) : q.isAnsweredBy d = q.isAnsweredBy d' := by
  funext n
  unfold Query.isAnsweredBy
  rw [h.satisfies_eq, h.parent?_eq, h.holdsFrom_eq]

theorem accepts_eq (q : Query) : q.accepts d = q.accepts d' := by
  funext n
  unfold Query.accepts
  rw [h.satisfies_eq, h.parent?_eq, h.holdsFrom_eq]

theorem candidates_eq (q : Query) (root : Option NodeId) :
    q.candidates d root = q.candidates d' root := by
  cases root with
  | none => rfl
  | some r => exact congrFun (congrFun h.find_eq q.key) r

theorem answers_eq (q : Query) (root : Option NodeId) : q.answers d root = q.answers d' root := by
  unfold Query.answers
  rw [h.candidates_eq, h.accepts_eq]

theorem closest?_eq (q : Query) (n root : NodeId) : q.closest? d n root = q.closest? d' n root := by
  unfold Query.closest?
  rw [h.lineage_eq, h.isAnsweredBy_eq]

end Document.Alike

/-! ### Engines -/

namespace Engine

variable {d d' : Document}

theorem search_of_alike (h : d.Alike d') (e : Engine) (selector : String) (root : Option NodeId) :
    e.search d selector root = e.search d' selector root := by
  have hsearch : ∀ q : Query,
      (q.search d root : Journal Fault (List NodeId)) = q.search d' root := by
    intro q
    unfold Query.search
    rw [h.candidates_eq, h.answers_eq]
  unfold search
  simp only [hsearch]

theorem select_of_alike (h : d.Alike d') (e : Engine) (selector : String) (root : Option NodeId) :
    e.select d selector root = e.select d' selector root := by
  unfold select
  rw [search_of_alike h]

/-- Chained searches go step by step together: each starts below the same node in both documents. -/
theorem selections_of_alike (h : d.Alike d') (e : Engine) (root : Option NodeId)
    (last : Option Selection) (selectors : List String) :
    e.selections d root last selectors = e.selections d' root last selectors := by
  induction selectors generalizing last with
  | nil => rfl
  | cons selector selectors ih =>
    simp only [selections, find, select_of_alike h, ih]

/-- **Main theorem**: on two documents that are alike, every engine finds the same nodes in the
    same order or fails with the same fault, when it searches below a root, when it goes up from a
    node, and in every step of a chain of selections. -/
theorem runs_eq_of_alike (h : d.Alike d') (e : Engine) :
    (∀ selector root, e.search d selector root = e.search d' selector root) ∧
    (∀ n selector root, e.closest? d n selector root = e.closest? d' n selector root) ∧
    (∀ root last selectors,
      e.selections d root last selectors = e.selections d' root last selectors) := by
  refine ⟨search_of_alike h e, ?_, selections_of_alike h e⟩
  intro n selector root
  unfold closest?
  simp only [h.closest?_eq]

/-- A menu with two items. -/
def menu : Document :=
  .ofSpec ⟨"ul", some "list", some "menu wide", none, [
    ⟨"li", none, some "item first", some "Home", []⟩, ⟨"li", none, some "item", none, []⟩]⟩

/-- The same menu, written in another way and with other texts. -/
def menuRewritten : Document :=
  .ofSpec ⟨"UL", some "list", some " wide\tmenu wide", some "Menu", [
    ⟨"Li", none, some "first\nitem", none, []⟩, ⟨"lI", none, some "item item ", some "x", []⟩]⟩

/-- The items are found in both menus. -/
theorem runs_eq_menu :
    menu.Reachable ∧ menuRewritten.Reachable ∧ menu ≠ menuRewritten ∧ menu.Alike menuRewritten ∧
    ∃ e : Engine, (e.tokenize ".menu li.item").outcome =
        .ok [⟨".menu", .className⟩, ⟨"li.item", .nameAndClass⟩] ∧
      (e.search menu ".menu li.item" (some 0)).outcome = .ok [2, 3] ∧
      (e.search menuRewritten ".menu li.item" (some 0)).outcome = .ok [2, 3] ∧
      e.closest? menu 2 ".wide" 0 = e.closest? menuRewritten 2 ".wide" 0 ∧
      e.selections menu (some 0) none ["ul", "li.item"] =
        e.selections menuRewritten (some 0) none ["ul", "li.item"] := by
  have halike : menu.Alike menuRewritten := by decide +kernel
  obtain ⟨e, he⟩ := exists_standard .strict
  have hselector : (e.tokenize ".menu li.item").outcome =
      .ok [⟨".menu", .className⟩, ⟨"li.item", .nameAndClass⟩] := by
    refine outcome_tokenize_standard he (Journal.eq_ok_of_toOption ?_)
    decide +kernel
  have hfound : (e.search menu ".menu li.item" (some 0)).outcome = .ok [2, 3] := by
    rw [outcome_search hselector]
    refine congrArg Except.ok ?_
    decide +kernel
  obtain ⟨hsearch, hclosest, hselections⟩ := runs_eq_of_alike halike e
  exact ⟨.ofSpec _, .ofSpec _, by decide +kernel, halike, e, hselector, hfound,
    hsearch _ _ ▸ hfound, hclosest 2 ".wide" 0, hselections (some 0) none _⟩

end Engine

end TreeQuery
