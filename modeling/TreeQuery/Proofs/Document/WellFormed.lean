import TreeQuery.Document.Spec
import TreeQuery.Document.Navigation

/-! # Reachable documents are trees

    A document starts with its root alone, or with a subtree below the root, and
    grows by operations, each of which may name a node that the document does
    not have. This module says what a run of such operations can build:

    * **Operations**: one constructor per operation of a document; a refused
      operation leaves the document as it is.
    * **Construction steps**: every operation is a sequence of two steps, adding
      one element below a node and redecorating one element in place. A subtree
      that is appended redecorates no element but its own.
    * **Well-formedness**: parents have smaller numbers than their children, and
      the two directions of the table agree. Each step preserves it, so every
      reachable document has it.
-/

namespace TreeQuery

namespace ElementSpec

mutual

/-- The ids that a specification gives, at any depth. -/
def ids : ElementSpec → List String
  | ⟨_, id, _, _, children⟩ => id.toList ++ idsOfAll children

/-- The ids that several specifications give. -/
def idsOfAll : List ElementSpec → List String
  | [] => []
  | spec :: specs => ids spec ++ idsOfAll specs

end

mutual

/-- The number of elements of a specification. -/
def size : ElementSpec → Nat
  | ⟨_, _, _, _, children⟩ => sizeOfAll children + 1

/-- The number of elements of several specifications. -/
def sizeOfAll : List ElementSpec → Nat
  | [] => 0
  | spec :: specs => size spec + sizeOfAll specs

end

end ElementSpec

namespace Document

/-! ### Operations and runs -/

/-- What can be done to a document. The node of an operation may be any number. -/
inductive Operation where
  | append (parent : NodeId) (tag : String)
  | appendSpec (parent : NodeId) (spec : ElementSpec)
  | setId (n : NodeId) (id : Option String)
  | setClasses (n : NodeId) (classList : String)
  | setText (n : NodeId) (text : Option String)

/-- The document after an operation, unless the operation is refused. -/
def Operation.outcome? (d : Document) : Operation → Option Document
  | .append parent tag => (d.append? parent tag).map (·.2)
  | .appendSpec parent spec => (d.appendSpec? parent spec).map (·.2)
  | .setId n id => d.setId? n id
  | .setClasses n classList => d.setClasses? n classList
  | .setText n text => d.setText? n text

/-- The document after an operation; a refused one changes nothing. -/
def Operation.run (d : Document) (op : Operation) : Document :=
  (op.outcome? d).getD d

/-- Whether an operation is made to set the id or the class list of a node. -/
def Operation.marks : Operation → NodeId → Bool
  | .setId m _, n => m == n
  | .setClasses m _, n => m == n
  | _, _ => false

/-- The documents that some run of operations builds. -/
inductive Reachable : Document → Prop where
  | empty : Reachable .empty
  | ofSpec (spec : ElementSpec) : Reachable (.ofSpec spec)
  | step {d : Document} (op : Operation) : Reachable d → Reachable (op.run d)

/-! ### Construction steps -/

/-- A change of an element that leaves its tag and its place in the tree alone. -/
structure KeepsPlace (f : Element → Element) : Prop where
  tag : ∀ e, (f e).tag = e.tag
  parent : ∀ e, (f e).parent = e.parent
  children : ∀ e, (f e).children = e.children

/-- The documents built by adding one element at a time and redecorating elements in place. -/
inductive Built : Document → Prop where
  | empty : Built .empty
  | push {d : Document} {parent : NodeId} (tag : String) :
      Built d → parent < d.size → Built (d.push parent tag)
  | modify {d : Document} (n : NodeId) {f : Element → Element} :
      Built d → KeepsPlace f → Built (d.modify n f)

mutual

theorem size_graft (d : Document) (parent : NodeId) (spec : ElementSpec) :
    (d.graft parent spec).size = d.size + spec.size := by
  obtain ⟨tag, id, classList, text, children⟩ := spec
  rw [graft, ElementSpec.size]
  have h := size_graftAll ((d.push parent tag).modify d.size
    fun e => { e with id, classList := classList.getD "", text }) d.size children
  rw [size_modify, size_push] at h
  omega

theorem size_graftAll (d : Document) (parent : NodeId) (specs : List ElementSpec) :
    (d.graftAll parent specs).size = d.size + ElementSpec.sizeOfAll specs := by
  match specs with
  | [] => rw [graftAll, ElementSpec.sizeOfAll, Nat.add_zero]
  | spec :: specs =>
    have hfirst := size_graft d parent spec
    have hrest := size_graftAll (d.graft parent spec) parent specs
    rw [graftAll, ElementSpec.sizeOfAll]
    omega

end

/-- The documents that grow out of one: elements are added, and only those that have been added are
    redecorated, with no other ids than those allowed. -/
inductive Grows (base : Document) (allowed : String → Prop) : Document → Prop where
  | refl : Grows base allowed base
  | push {d : Document} {parent : NodeId} (tag : String) :
      Grows base allowed d → parent < d.size → Grows base allowed (d.push parent tag)
  | modify {d : Document} {n : NodeId} {f : Element → Element} :
      Grows base allowed d → base.size ≤ n → KeepsPlace f →
      (∀ e key, (f e).id = some key → allowed key) → Grows base allowed (d.modify n f)

theorem Grows.size_le {base d : Document} {allowed : String → Prop}
    (h : Grows base allowed d) : base.size ≤ d.size := by
  induction h with
  | refl => exact Nat.le_refl _
  | push tag _ _ ih =>
    rw [size_push]
    exact Nat.le_succ_of_le ih
  | modify _ _ _ _ ih => rwa [size_modify]

/-- Growing is building on. -/
theorem Grows.built {base d : Document} {allowed : String → Prop} (h : Grows base allowed d)
    (hbase : Built base) : Built d := by
  induction h with
  | refl => exact hbase
  | push tag _ hp ih => exact ih.push tag hp
  | modify _ _ hf _ ih => exact ih.modify _ hf

mutual

theorem grows_graft {base d : Document} {allowed : String → Prop} (h : Grows base allowed d)
    {parent : NodeId} (hp : parent < d.size) (spec : ElementSpec)
    (hids : ∀ key ∈ spec.ids, allowed key) : Grows base allowed (d.graft parent spec) := by
  obtain ⟨tag, id, classList, text, children⟩ := spec
  simp only [ElementSpec.ids, List.mem_append, Option.mem_toList] at hids
  rw [graft]
  -- the element is added and decorated, and then the subtrees are grafted below it
  apply grows_graftAll
  · exact (h.push tag hp).modify h.size_le ⟨fun _ => rfl, fun _ => rfl, fun _ => rfl⟩
      fun e key hkey => hids key (.inl hkey)
  · simp only [size_modify, size_push]
    exact Nat.lt_succ_self d.size
  · exact fun key hkey => hids key (.inr hkey)

theorem grows_graftAll {base d : Document} {allowed : String → Prop} (h : Grows base allowed d)
    {parent : NodeId} (hp : parent < d.size) (specs : List ElementSpec)
    (hids : ∀ key ∈ ElementSpec.idsOfAll specs, allowed key) :
    Grows base allowed (d.graftAll parent specs) := by
  match specs with
  | [] => rw [graftAll]; exact h
  | spec :: specs =>
    simp only [ElementSpec.idsOfAll, List.mem_append] at hids
    rw [graftAll]
    have hfirst := grows_graft h hp spec fun key hkey => hids key (.inl hkey)
    have hp' : parent < (d.graft parent spec).size := by
      rw [size_graft]
      exact Nat.lt_add_right spec.size hp
    exact grows_graftAll hfirst hp' specs fun key hkey => hids key (.inr hkey)

end

theorem built_graft {d : Document} (h : Built d) {parent : NodeId} (hp : parent < d.size)
    (spec : ElementSpec) : Built (d.graft parent spec) := by
  have hgrows : Grows d (fun _ => True) (d.graft parent spec) :=
    grows_graft .refl hp spec fun _ _ => trivial
  exact hgrows.built h

/-- What an operation does that is not refused: elements are added, or one of them is redecorated in
    its place. An id or a class list changes only where the operation is made to set it. -/
theorem Operation.grows_or_modifies {d d' : Document} {op : Operation}
    (hop : op.outcome? d = some d') :
    Grows d (fun _ => True) d' ∨
    ∃ n f, d' = d.modify n f ∧ KeepsPlace f ∧
      (op.marks n = false → ∀ e, (f e).id = e.id ∧ (f e).classList = e.classList) := by
  cases op with
  | append parent tag =>
    obtain ⟨r, hr, rfl⟩ := Option.map_eq_some_iff.mp hop
    obtain ⟨hp, ⟨⟩⟩ := Option.ite_none_right_eq_some.mp hr
    exact .inl (.push tag .refl (contains_iff.mp hp))
  | appendSpec parent spec =>
    obtain ⟨r, hr, rfl⟩ := Option.map_eq_some_iff.mp hop
    obtain ⟨hp, ⟨⟩⟩ := Option.ite_none_right_eq_some.mp hr
    exact .inl (grows_graft .refl (contains_iff.mp hp) spec fun _ _ => trivial)
  | setId n id =>
    obtain ⟨-, ⟨⟩⟩ := Option.ite_none_right_eq_some.mp hop
    exact .inr ⟨n, _, rfl, ⟨fun _ => rfl, fun _ => rfl, fun _ => rfl⟩, by simp [marks]⟩
  | setClasses n classList =>
    obtain ⟨-, ⟨⟩⟩ := Option.ite_none_right_eq_some.mp hop
    exact .inr ⟨n, _, rfl, ⟨fun _ => rfl, fun _ => rfl, fun _ => rfl⟩, by simp [marks]⟩
  | setText n text =>
    obtain ⟨-, ⟨⟩⟩ := Option.ite_none_right_eq_some.mp hop
    exact .inr ⟨n, _, rfl, ⟨fun _ => rfl, fun _ => rfl, fun _ => rfl⟩, fun _ _ => ⟨rfl, rfl⟩⟩

/-- An operation is refused, or it is a sequence of construction steps. -/
theorem built_of_outcome? {d d' : Document} {op : Operation} (h : Built d)
    (hop : op.outcome? d = some d') : Built d' := by
  rcases Operation.grows_or_modifies hop with hgrows | ⟨n, f, rfl, hf, -⟩
  · exact hgrows.built h
  · exact h.modify n hf

/-- A run of operations is a run of construction steps. -/
theorem Reachable.built {d : Document} (h : Reachable d) : Built d := by
  induction h with
  | empty => exact .empty
  | ofSpec spec =>
    exact built_graft .empty (by simp [root]) spec
  | @step d op _ ih =>
    unfold Operation.run
    cases hop : op.outcome? d with
    | none => exact ih
    | some d' => exact built_of_outcome? ih hop

/-! ### Well-formedness -/

/-- The table of a document is a tree: only the root has no parent, a parent has a smaller
    number than its children, and an element lists exactly the nodes that name it as their
    parent, in increasing order. -/
structure WellFormed (d : Document) : Prop where
  size_pos : 0 < d.size
  parent_eq_none_iff : ∀ {n e}, d.element? n = some e → (e.parent = none ↔ n = root)
  parent_lt : ∀ {n e p}, d.element? n = some e → e.parent = some p → p < n
  mem_children_iff : ∀ {p e c}, d.element? p = some e →
    (c ∈ e.children.toList ↔ ∃ e', d.element? c = some e' ∧ e'.parent = some p)
  children_sorted : ∀ {p e}, d.element? p = some e → e.children.toList.Pairwise (· < ·)

theorem lt_size_of_element? {d : Document} {n : NodeId} {e : Element}
    (h : d.element? n = some e) : n < d.size := by
  rcases Nat.lt_or_ge n d.size with hn | hn
  · exact hn
  · rw [element?_eq_none_iff.mpr hn] at h
    cases h

theorem wellFormed_empty : WellFormed .empty := by
  have hroot : ∀ {n e}, empty.element? n = some e → n = root ∧ e = .fresh rootTag none := by
    intro n e h
    have hn := lt_size_of_element? h
    obtain rfl : n = 0 := Nat.lt_one_iff.mp hn
    exact ⟨rfl, (Option.some.inj h).symm⟩
  refine ⟨by simp, ?_, ?_, ?_, ?_⟩
  · intro n e h
    obtain ⟨rfl, rfl⟩ := hroot h
    simp [Element.fresh]
  · intro n e p h hp
    obtain ⟨rfl, rfl⟩ := hroot h
    simp [Element.fresh] at hp
  · intro p e c h
    obtain ⟨rfl, rfl⟩ := hroot h
    constructor
    · intro hc
      simp [Element.fresh] at hc
    · rintro ⟨e', he', hparent⟩
      obtain ⟨rfl, rfl⟩ := hroot he'
      simp [Element.fresh] at hparent
  · intro p e h
    obtain ⟨rfl, rfl⟩ := hroot h
    simp [Element.fresh]

/-- An element after a redecoration is an element before it, up to its decoration. -/
theorem element?_modify_of_keepsPlace {d : Document} {f : Element → Element}
    (hf : KeepsPlace f) (n : NodeId) {m : NodeId} {e : Element}
    (h : (d.modify n f).element? m = some e) :
    ∃ e', d.element? m = some e' ∧ e.parent = e'.parent ∧ e.children = e'.children := by
  rw [element?_modify] at h
  split at h
  · obtain ⟨e', he', rfl⟩ := Option.map_eq_some_iff.mp h
    exact ⟨e', he', hf.parent e', hf.children e'⟩
  · exact ⟨e, h, rfl, rfl⟩

/-- Conversely, every element stays in place. -/
theorem exists_element?_modify {d : Document} {f : Element → Element}
    (hf : KeepsPlace f) (n : NodeId) {m : NodeId} {e : Element} (h : d.element? m = some e) :
    ∃ e', (d.modify n f).element? m = some e' ∧ e'.parent = e.parent := by
  rw [element?_modify]
  split
  · exact ⟨f e, by rw [h, Option.map_some], hf.parent e⟩
  · exact ⟨e, h, rfl⟩

theorem WellFormed.modify {d : Document} (h : WellFormed d) (n : NodeId)
    {f : Element → Element} (hf : KeepsPlace f) : WellFormed (d.modify n f) := by
  refine ⟨by simpa using h.size_pos, ?_, ?_, ?_, ?_⟩
  · intro m e he
    obtain ⟨e', he', hparent, -⟩ := element?_modify_of_keepsPlace hf n he
    rw [hparent]
    exact h.parent_eq_none_iff he'
  · intro m e p he hp
    obtain ⟨e', he', hparent, -⟩ := element?_modify_of_keepsPlace hf n he
    exact h.parent_lt he' (hparent ▸ hp)
  · intro p e c he
    obtain ⟨e', he', -, hchildren⟩ := element?_modify_of_keepsPlace hf n he
    rw [hchildren, h.mem_children_iff he']
    constructor
    · rintro ⟨ec, hc, hp⟩
      obtain ⟨ec', hc', hparent⟩ := exists_element?_modify hf n hc
      exact ⟨ec', hc', hparent.trans hp⟩
    · rintro ⟨ec, hc, hp⟩
      obtain ⟨ec', hc', hparent, -⟩ := element?_modify_of_keepsPlace hf n hc
      exact ⟨ec', hc', hparent ▸ hp⟩
  · intro p e he
    obtain ⟨e', he', -, hchildren⟩ := element?_modify_of_keepsPlace hf n he
    rw [hchildren]
    exact h.children_sorted he'

/-- What an element of a document with one more element is: the new one, the one that has
    adopted it, or an old one. -/
theorem element?_push_cases {d : Document} {parent n : NodeId} {tag : String} {e : Element}
    (h : (d.push parent tag).element? n = some e) :
    (n = d.size ∧ e = .fresh tag (some parent)) ∨
    (n < d.size ∧ n = parent ∧ ∃ e', d.element? n = some e' ∧ e = e'.adopt d.size) ∨
    (n < d.size ∧ n ≠ parent ∧ d.element? n = some e) := by
  rw [element?_push] at h
  split at h
  · next hn => exact .inl ⟨hn, (Option.some.inj h).symm⟩
  · split at h
    · next hp =>
      obtain ⟨e', he', rfl⟩ := Option.map_eq_some_iff.mp h
      exact .inr (.inl ⟨lt_size_of_element? he', hp.symm, e', he', rfl⟩)
    · next hp => exact .inr (.inr ⟨lt_size_of_element? h, fun hn => hp hn.symm, h⟩)

theorem element?_push_self (d : Document) (parent : NodeId) (tag : String) :
    (d.push parent tag).element? d.size = some (.fresh tag (some parent)) := by
  rw [element?_push, if_pos rfl]

/-- Adding an element changes no parent. -/
theorem exists_element?_push {d : Document} (parent : NodeId) (tag : String) {n : NodeId}
    {e : Element} (h : d.element? n = some e) :
    ∃ e', (d.push parent tag).element? n = some e' ∧ e'.parent = e.parent := by
  rw [element?_push, if_neg (Nat.ne_of_lt (lt_size_of_element? h))]
  split
  · exact ⟨e.adopt d.size, by rw [h, Option.map_some], rfl⟩
  · exact ⟨e, h, rfl⟩

/-- The nodes with a given parent after an element has been added. -/
theorem exists_parent_push_iff {d : Document} {parent : NodeId} (tag : String) {c p : NodeId} :
    (∃ e, (d.push parent tag).element? c = some e ∧ e.parent = some p) ↔
      (c = d.size ∧ p = parent) ∨ ∃ e, d.element? c = some e ∧ e.parent = some p := by
  constructor
  · rintro ⟨e, he, hp⟩
    rcases element?_push_cases he with ⟨hc, rfl⟩ | ⟨-, -, e', he', rfl⟩ | ⟨-, -, he'⟩
    · exact .inl ⟨hc, (Option.some.inj hp).symm⟩
    · exact .inr ⟨e', he', hp⟩
    · exact .inr ⟨e, he', hp⟩
  · rintro (⟨rfl, rfl⟩ | ⟨e, he, hp⟩)
    · exact ⟨_, element?_push_self d p tag, rfl⟩
    · obtain ⟨e', he', hparent⟩ := exists_element?_push parent tag he
      exact ⟨e', he', hparent.trans hp⟩

theorem WellFormed.push {d : Document} (h : WellFormed d) {parent : NodeId} (tag : String)
    (hp : parent < d.size) : WellFormed (d.push parent tag) := by
  have hpos := h.size_pos
  refine ⟨by simp, ?_, ?_, ?_, ?_⟩
  · intro n e he
    rcases element?_push_cases he with ⟨rfl, rfl⟩ | ⟨-, -, e', he', rfl⟩ | ⟨-, -, he'⟩
    · simp only [Element.fresh, root, reduceCtorEq, false_iff]
      exact Nat.ne_of_gt hpos
    · exact h.parent_eq_none_iff (e := e') he'
    · exact h.parent_eq_none_iff he'
  · intro n e p he hparent
    rcases element?_push_cases he with ⟨rfl, rfl⟩ | ⟨-, -, e', he', rfl⟩ | ⟨-, -, he'⟩
    · cases hparent
      exact hp
    · exact h.parent_lt he' hparent
    · exact h.parent_lt he' hparent
  · intro p e c he
    rw [exists_parent_push_iff]
    rcases element?_push_cases he with ⟨rfl, rfl⟩ | ⟨-, rfl, e', he', rfl⟩ | ⟨-, hne, he'⟩
    · -- the new element has no children, and no element has it as its parent
      simp only [Element.fresh, List.not_mem_nil, false_iff, not_or, not_and, not_exists]
      refine ⟨fun _ => Nat.ne_of_gt hp, fun e' he' hparent => ?_⟩
      have hlt := h.parent_lt he' hparent
      exact Nat.lt_asymm hlt (lt_size_of_element? he')
    · -- the parent has its old children and the new one
      simp only [Element.adopt, Array.toList_push, List.mem_append, List.mem_singleton,
        h.mem_children_iff he', and_true]
      exact or_comm
    · rw [h.mem_children_iff he']
      constructor
      · exact .inr
      · rintro (⟨-, heq⟩ | hold)
        · exact absurd heq hne
        · exact hold
  · intro p e he
    rcases element?_push_cases he with ⟨rfl, rfl⟩ | ⟨-, rfl, e', he', rfl⟩ | ⟨-, -, he'⟩
    · simp [Element.fresh]
    · -- the new node has a larger number than every node before it
      simp only [Element.adopt, Array.toList_push]
      refine List.pairwise_append.mpr ⟨h.children_sorted he', by simp, ?_⟩
      intro c hc x hx
      obtain ⟨ec, hec, -⟩ := (h.mem_children_iff he').mp hc
      rw [List.mem_singleton.mp hx]
      exact lt_size_of_element? hec
    · exact h.children_sorted he'

theorem Built.wellFormed {d : Document} (h : Built d) : WellFormed d := by
  induction h with
  | empty => exact wellFormed_empty
  | push tag _ hp ih => exact ih.push tag hp
  | modify n _ hf ih => exact ih.modify n hf

/-- Every reachable document is a tree. -/
theorem Reachable.wellFormed {d : Document} (h : Reachable d) : WellFormed d :=
  h.built.wellFormed

end Document

end TreeQuery
