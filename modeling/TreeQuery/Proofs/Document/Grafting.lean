import TreeQuery.Proofs.Document.Scan

/-! # Grafting — a subtree is stored whole

    A specification is appended element by element: each nested specification is
    appended to the document that the ones before it have left, and adds to the
    children of an element that is already there. Here the outcome is told in
    advance.

    * **Layout**: the elements of a specification in pre-order, each with the
      numbers that its children get.
    * **Grafting**: the elements that are new are those of the layout, and of the
      old ones only the parent changes, by one more child.
    * **Reading back**: from a layout, a subtree can be read back at any of its
      nodes, and its pre-order is the order of its numbers.
    * **Appending**: the calls that append the nested specifications are not
      refused, so nothing of a specification gets lost.

    Main statement: `appendSpec?_stores_spec`
-/

namespace TreeQuery

/-! ### Layout -/

namespace ElementSpec

mutual

/-- A specification and all specifications below it, in pre-order. -/
def flatten : ElementSpec → List ElementSpec
  | ⟨tag, id, classList, text, children⟩ =>
    ⟨tag, id, classList, text, children⟩ :: flattenAll children

/-- Several specifications and all specifications below them, in pre-order. -/
def flattenAll : List ElementSpec → List ElementSpec
  | [] => []
  | spec :: specs => flatten spec ++ flattenAll specs

end

mutual

/-- The specification with its classes told at every depth; absent classes are an empty list. -/
def explicit : ElementSpec → ElementSpec
  | ⟨tag, id, classList, text, children⟩ =>
    ⟨tag, id, some (classList.getD ""), text, explicitAll children⟩

/-- Several specifications with their classes told. -/
def explicitAll : List ElementSpec → List ElementSpec
  | [] => []
  | spec :: specs => explicit spec :: explicitAll specs

end

/-- The numbers of the topmost elements of several subtrees that are laid out one after another. -/
def topsFrom (n : NodeId) : List ElementSpec → List NodeId
  | [] => []
  | spec :: specs => n :: topsFrom (n + spec.size) specs

mutual

/-- The elements of a subtree below a parent, in the order of their numbers from `n` on. -/
def layout (parent n : NodeId) : ElementSpec → List Element
  | ⟨tag, id, classList, text, children⟩ =>
    ⟨tag, id, classList.getD "", text, some parent, (topsFrom (n + 1) children).toArray⟩ ::
      layoutAll n (n + 1) children

/-- The elements of several subtrees below a parent, laid out one after another. -/
def layoutAll (parent n : NodeId) : List ElementSpec → List Element
  | [] => []
  | spec :: specs => layout parent n spec ++ layoutAll parent (n + spec.size) specs

end

mutual

theorem length_flatten (spec : ElementSpec) : spec.flatten.length = spec.size := by
  obtain ⟨tag, id, classList, text, children⟩ := spec
  rw [flatten, size, List.length_cons, length_flattenAll]

theorem length_flattenAll (specs : List ElementSpec) :
    (flattenAll specs).length = sizeOfAll specs := by
  match specs with
  | [] => rw [flattenAll, sizeOfAll, List.length_nil]
  | spec :: specs =>
    rw [flattenAll, sizeOfAll, List.length_append, length_flatten spec, length_flattenAll specs]

end

mutual

theorem length_layout (parent n : NodeId) (spec : ElementSpec) :
    (spec.layout parent n).length = spec.size := by
  obtain ⟨tag, id, classList, text, children⟩ := spec
  rw [layout, size, List.length_cons, length_layoutAll]

theorem length_layoutAll (parent n : NodeId) (specs : List ElementSpec) :
    (layoutAll parent n specs).length = sizeOfAll specs := by
  match specs with
  | [] => rw [layoutAll, sizeOfAll, List.length_nil]
  | spec :: specs =>
    rw [layoutAll, sizeOfAll, List.length_append, length_layout parent n spec,
      length_layoutAll parent (n + spec.size) specs]

end

theorem size_pos (spec : ElementSpec) : 0 < spec.size := by
  obtain ⟨tag, id, classList, text, children⟩ := spec
  rw [size]
  exact Nat.succ_pos _

end ElementSpec

namespace Document

variable {d : Document} {parent n : NodeId} {spec : ElementSpec} {specs : List ElementSpec}

open ElementSpec (topsFrom layoutAll flattenAll explicitAll sizeOfAll)

/-- The nodes from a number on have the elements of a list. -/
def HoldsFrom (d : Document) (n : NodeId) (l : List Element) : Prop :=
  ∀ (i : Nat) (e : Element), l[i]? = some e → d.element? (n + i) = some e

theorem HoldsFrom.head {e : Element} {l : List Element} (h : d.HoldsFrom n (e :: l)) :
    d.element? n = some e := h 0 e rfl

theorem HoldsFrom.tail {e : Element} {l : List Element} (h : d.HoldsFrom n (e :: l)) :
    d.HoldsFrom (n + 1) l := by
  intro i e' he'
  rw [Nat.add_assoc, Nat.add_comm 1 i]
  exact h (i + 1) e' he'

theorem HoldsFrom.cons {e : Element} {l : List Element} (he : d.element? n = some e)
    (h : d.HoldsFrom (n + 1) l) : d.HoldsFrom n (e :: l) := by
  intro i e' he'
  cases i with
  | zero => exact Option.some.inj he' ▸ he
  | succ i =>
    have hi := h i e' he'
    rwa [Nat.add_assoc, Nat.add_comm 1 i] at hi

theorem HoldsFrom.left {l l' : List Element} (h : d.HoldsFrom n (l ++ l')) : d.HoldsFrom n l := by
  intro i e he
  refine h i e ?_
  rw [List.getElem?_append_left (List.getElem?_eq_some_iff.mp he).1, he]

theorem HoldsFrom.right {l l' : List Element} (h : d.HoldsFrom n (l ++ l')) :
    d.HoldsFrom (n + l.length) l' := by
  intro i e he
  rw [Nat.add_assoc]
  refine h (l.length + i) e ?_
  rw [List.getElem?_append_right (Nat.le_add_right _ _), Nat.add_sub_cancel_left, he]

theorem HoldsFrom.append {l l' : List Element} (h : d.HoldsFrom n l)
    (h' : d.HoldsFrom (n + l.length) l') : d.HoldsFrom n (l ++ l') := by
  intro i e he
  rcases Nat.lt_or_ge i l.length with hi | hi
  · rw [List.getElem?_append_left hi] at he
    exact h i e he
  · rw [List.getElem?_append_right hi] at he
    have hlater := h' _ e he
    rwa [Nat.add_assoc, Nat.add_sub_cancel' hi] at hlater

theorem HoldsFrom.length_le {l : List Element} (h : d.HoldsFrom n l) : l.length ≤ d.size := by
  rcases List.eq_nil_or_concat' l with rfl | ⟨front, last, rfl⟩
  · exact Nat.zero_le _
  · have hlast := lt_size_of_element? (h front.length last List.getElem?_concat_length)
    rw [List.length_append, List.length_singleton]
    exact Nat.lt_of_le_of_lt (Nat.le_add_left _ n) hlast

/-! ### Grafting -/

theorem foldl_adopt (e : Element) (cs : List NodeId) :
    cs.foldl Element.adopt e = { e with children := e.children ++ cs.toArray } := by
  induction cs generalizing e with
  | nil => simp
  | cons c cs ih =>
    rw [List.foldl_cons, ih]
    simp [Element.adopt]

mutual

/-- Of the old elements, grafting a subtree changes only the parent, which adopts its top. -/
theorem element?_graft_of_lt {d : Document} (parent : NodeId) (spec : ElementSpec) {m : NodeId}
    (hm : m < d.size) :
    (d.graft parent spec).element? m =
      (d.element? m).map fun e => if m = parent then e.adopt d.size else e := by
  obtain ⟨tag, id, classList, text, children⟩ := spec
  have hne : m ≠ d.size := Nat.ne_of_lt hm
  rw [graft, element?_graftAll_of_lt d.size children (by simpa using Nat.lt_succ_of_lt hm),
    element?_modify, if_neg hne.symm, element?_push, if_neg hne]
  -- the element that comes in takes the rest of the subtree
  simp only [hne, if_false, Option.map_id']
  by_cases heq : parent = m
  · simp [heq]
  · simp [heq, Ne.symm heq]

/-- Grafting several subtrees changes only the parent, which adopts their tops in order. -/
theorem element?_graftAll_of_lt {d : Document} (parent : NodeId) (specs : List ElementSpec)
    {m : NodeId} (hm : m < d.size) :
    (d.graftAll parent specs).element? m =
      (d.element? m).map fun e =>
        if m = parent then (topsFrom d.size specs).foldl Element.adopt e else e := by
  match specs with
  | [] =>
    rw [graftAll, topsFrom]
    simp
  | spec :: specs =>
    have hlater : m < (d.graft parent spec).size := by
      rw [size_graft]
      exact Nat.lt_add_right _ hm
    rw [graftAll, element?_graftAll_of_lt parent specs hlater, element?_graft_of_lt parent spec hm,
      size_graft, Option.map_map, topsFrom]
    congr 1
    funext e
    by_cases heq : m = parent <;> simp [heq]

end

mutual

/-- The elements that are new are those of the layout. -/
theorem holdsFrom_graft (d : Document) (parent : NodeId) (spec : ElementSpec) :
    (d.graft parent spec).HoldsFrom d.size (spec.layout parent d.size) := by
  obtain ⟨tag, id, classList, text, children⟩ := spec
  rw [graft, ElementSpec.layout]
  set fresh := (d.push parent tag).modify d.size
    fun e => { e with id, classList := classList.getD "", text }
  have hsize : fresh.size = d.size + 1 := by simp [fresh]
  have hlt : d.size < fresh.size := by omega
  have hnew : fresh.element? d.size =
      some ⟨tag, id, classList.getD "", text, some parent, #[]⟩ := by
    simp [fresh, element?_modify, element?_push_self, Element.fresh]
  refine .cons ?_ ?_
  · -- the new element has no children before the rest of the subtree comes
    rw [element?_graftAll_of_lt d.size children hlt, hnew, hsize]
    simp [foldl_adopt]
  · rw [← hsize]
    exact holdsFrom_graftAll hlt children

theorem holdsFrom_graftAll {d : Document} {parent : NodeId} (hp : parent < d.size)
    (specs : List ElementSpec) :
    (d.graftAll parent specs).HoldsFrom d.size (layoutAll parent d.size specs) := by
  match specs with
  | [] =>
    rw [layoutAll]
    exact nofun
  | spec :: specs =>
    have hsize := size_graft d parent spec
    have hp' : parent < (d.graft parent spec).size := by
      rw [hsize]
      exact Nat.lt_add_right _ hp
    rw [graftAll, layoutAll]
    refine .append ?_ ?_
    · -- the later subtrees leave the first one alone, since its elements are not the parent
      intro i e he
      have hi : i < spec.size := by
        rw [← ElementSpec.length_layout parent d.size spec]
        exact (List.getElem?_eq_some_iff.mp he).1
      have hlater : d.size + i < (d.graft parent spec).size := by omega
      have hne : d.size + i ≠ parent := Nat.ne_of_gt (Nat.lt_add_right i hp)
      rw [element?_graftAll_of_lt parent specs hlater, holdsFrom_graft d parent spec i e he]
      simp [hne]
    · rw [ElementSpec.length_layout, ← hsize]
      exact holdsFrom_graftAll hp' specs

end

/-! ### Reading back -/

/-- The element of a node and everything below it, as a specification, read at most so many levels
    deep. -/
def specWithin? (d : Document) : Nat → NodeId → Option ElementSpec
  | 0, _ => none
  | k + 1, n => do
    let e ← d.element? n
    let children ← (d.children n).mapM (d.specWithin? k)
    some ⟨e.tag, e.id, some e.classList, e.text, children⟩

/-- The element of a node and everything below it, as a specification. -/
def specAt? (d : Document) (n : NodeId) : Option ElementSpec :=
  d.specWithin? d.size n

mutual

/-- In the layout of a specification, every specification below it has its own layout at its place
    in pre-order. -/
theorem exists_holdsFrom_of_flatten {d : Document} (spec : ElementSpec) {parent n : NodeId}
    (h : d.HoldsFrom n (spec.layout parent n)) {i : Nat} {sub : ElementSpec}
    (hsub : spec.flatten[i]? = some sub) :
    ∃ parent', d.HoldsFrom (n + i) (sub.layout parent' (n + i)) := by
  obtain ⟨tag, id, classList, text, children⟩ := spec
  rw [ElementSpec.flatten] at hsub
  cases i with
  | zero =>
    obtain rfl := Option.some.inj hsub
    exact ⟨parent, h⟩
  | succ i =>
    rw [ElementSpec.layout] at h
    rw [← Nat.succ_add_eq_add_succ]
    exact exists_holdsFrom_of_flattenAll children h.tail hsub

theorem exists_holdsFrom_of_flattenAll {d : Document} (specs : List ElementSpec)
    {parent n : NodeId} (h : d.HoldsFrom n (layoutAll parent n specs)) {i : Nat}
    {sub : ElementSpec} (hsub : (flattenAll specs)[i]? = some sub) :
    ∃ parent', d.HoldsFrom (n + i) (sub.layout parent' (n + i)) := by
  match specs with
  | [] =>
    rw [flattenAll] at hsub
    cases hsub
  | spec :: specs =>
    rw [flattenAll] at hsub
    rw [layoutAll] at h
    have hlength := ElementSpec.length_flatten spec
    rcases Nat.lt_or_ge i spec.size with hi | hi
    · rw [List.getElem?_append_left (hlength ▸ hi)] at hsub
      exact exists_holdsFrom_of_flatten spec h.left hsub
    · have hlater := h.right
      rw [ElementSpec.length_layout] at hlater
      rw [List.getElem?_append_right (hlength ▸ hi), hlength] at hsub
      have hsubHolds := exists_holdsFrom_of_flattenAll specs hlater hsub
      rwa [Nat.add_assoc, Nat.add_sub_cancel' hi] at hsubHolds

end

theorem children_of_layout (h : WellFormed d) {tag classList : String} {id text : Option String}
    (he : d.element? n =
      some ⟨tag, id, classList, text, some parent, (topsFrom (n + 1) specs).toArray⟩) :
    d.children n = topsFrom (n + 1) specs := by
  rw [children_eq h he]

mutual

/-- From a layout the specification is read back, with its classes told. -/
theorem specWithin?_of_holdsFrom {d : Document} (h : WellFormed d) (spec : ElementSpec)
    {parent n : NodeId} {k : Nat} (hlayout : d.HoldsFrom n (spec.layout parent n))
    (hk : spec.size ≤ k) : d.specWithin? k n = some spec.explicit := by
  obtain ⟨tag, id, classList, text, children⟩ := spec
  rw [ElementSpec.size] at hk
  rw [ElementSpec.layout] at hlayout
  obtain ⟨k, rfl⟩ : ∃ j, k = j + 1 := ⟨k - 1, by omega⟩
  have hchildren := mapM_specWithin?_of_holdsFrom h children hlayout.tail
    (Nat.le_of_succ_le_succ hk)
  rw [specWithin?, hlayout.head, children_of_layout h hlayout.head, hchildren,
    ElementSpec.explicit]
  rfl

theorem mapM_specWithin?_of_holdsFrom {d : Document} (h : WellFormed d)
    (specs : List ElementSpec) {parent n : NodeId} {k : Nat}
    (hlayout : d.HoldsFrom n (layoutAll parent n specs)) (hk : sizeOfAll specs ≤ k) :
    (topsFrom n specs).mapM (d.specWithin? k) = some (explicitAll specs) := by
  match specs with
  | [] => rfl
  | spec :: specs =>
    rw [sizeOfAll] at hk
    rw [layoutAll] at hlayout
    have hlater := hlayout.right
    rw [ElementSpec.length_layout] at hlater
    rw [topsFrom, List.mapM_cons, specWithin?_of_holdsFrom h spec hlayout.left (by omega),
      mapM_specWithin?_of_holdsFrom h specs hlater (by omega), explicitAll]
    rfl

end

/-- A layout has room in the document, so it is read back whole. -/
theorem specAt?_of_holdsFrom (h : WellFormed d)
    (hlayout : d.HoldsFrom n (spec.layout parent n)) : d.specAt? n = some spec.explicit := by
  refine specWithin?_of_holdsFrom h spec hlayout ?_
  rw [← ElementSpec.length_layout parent n spec]
  exact hlayout.length_le

/-! ### Order -/

mutual

/-- The pre-order of what hangs below the top of a layout is the order of the numbers. -/
theorem isPreorder_of_holdsFrom {d : Document} (h : WellFormed d) (spec : ElementSpec)
    {parent n : NodeId} (hlayout : d.HoldsFrom n (spec.layout parent n)) :
    d.IsPreorder (d.children n) (List.range' (n + 1) (spec.size - 1)) := by
  obtain ⟨tag, id, classList, text, children⟩ := spec
  rw [ElementSpec.layout] at hlayout
  rw [children_of_layout h hlayout.head, ElementSpec.size, Nat.add_sub_cancel]
  exact isPreorder_topsFrom h children hlayout.tail

theorem isPreorder_topsFrom {d : Document} (h : WellFormed d) (specs : List ElementSpec)
    {parent n : NodeId} (hlayout : d.HoldsFrom n (layoutAll parent n specs)) :
    d.IsPreorder (topsFrom n specs) (List.range' n (sizeOfAll specs)) := by
  match specs with
  | [] => exact .nil
  | spec :: specs =>
    rw [layoutAll] at hlayout
    have hlater := hlayout.right
    rw [ElementSpec.length_layout] at hlater
    have hfirst := isPreorder_of_holdsFrom h spec hlayout.left
    have hrest := isPreorder_topsFrom h specs hlater
    -- the numbers of the first subtree come before those of the others, its top first
    have hsplit : List.range' n (sizeOfAll (spec :: specs)) =
        n :: (List.range' (n + 1) (spec.size - 1) ++
          List.range' (n + spec.size) (sizeOfAll specs)) := by
      obtain ⟨k, hk⟩ := Nat.exists_eq_succ_of_ne_zero (Nat.ne_of_gt spec.size_pos)
      rw [sizeOfAll, hk, ← List.range'_append_1, List.range'_succ]
      rfl
    rw [topsFrom, hsplit]
    exact .cons hfirst hrest

end

/-- The top of a layout is followed by its descendants. -/
theorem descendants_of_holdsFrom (h : WellFormed d)
    (hlayout : d.HoldsFrom n (spec.layout parent n)) :
    d.descendants n = List.range' (n + 1) (spec.size - 1) :=
  (isPreorder_descendants h n).eq (isPreorder_of_holdsFrom h spec hlayout)

/-- In the document of a specification, pre-order is the order of the numbers. -/
theorem descendants_ofSpec (spec : ElementSpec) :
    (ofSpec spec).descendants root = List.range' 1 ((ofSpec spec).size - 1) := by
  have h : WellFormed (ofSpec spec) := (Reachable.ofSpec spec).wellFormed
  have hroot : (ofSpec spec).element? root = some ((Element.fresh rootTag none).adopt 1) :=
    element?_graft_of_lt root spec (show root < empty.size by decide)
  have hchildren : (ofSpec spec).children root = [1] := children_eq h hroot
  have hlayout : (ofSpec spec).HoldsFrom 1 (spec.layout root 1) := holdsFrom_graft empty root spec
  have hsize : (ofSpec spec).size = 1 + spec.size := size_graft empty root spec
  rw [descendants_eq_flatMap h, hchildren, List.flatMap_singleton,
    descendants_of_holdsFrom h hlayout, hsize, Nat.add_sub_cancel_left, ← List.range'_succ,
    Nat.sub_add_cancel spec.size_pos]

/-! ### Appending -/

/-- Adding subtrees below a node is appending them one after another, each by a call that could be
    refused and whose refusal nobody looks at. -/
theorem graftAll_eq_foldl (hp : parent < d.size) (specs : List ElementSpec) :
    d.graftAll parent specs =
      specs.foldl (fun d spec => (Operation.appendSpec parent spec).run d) d := by
  induction specs generalizing d with
  | nil => rfl
  | cons spec specs ih =>
    have hrun : (Operation.appendSpec parent spec).run d = d.graft parent spec := by
      simp [Operation.run, Operation.outcome?, appendSpec?, contains_iff.mpr hp]
    have hp' : parent < (d.graft parent spec).size := by
      rw [size_graft]
      exact Nat.lt_add_right _ hp
    rw [graftAll, ih hp', List.foldl_cons, hrun]

/-- Appending a specification is appending an element, filling it in, and appending the
    specifications below it to it. No call on the way is refused unless the first one is. -/
theorem appendSpec?_eq_append? (d : Document) (parent : NodeId) (spec : ElementSpec) :
    d.appendSpec? parent spec = (d.append? parent spec.tag).map fun (node, d) =>
      (node, spec.children.foldl (fun d child => (Operation.appendSpec node child).run d)
        (d.modify node fun e =>
          { e with id := spec.id, classList := spec.classList.getD "", text := spec.text })) := by
  obtain ⟨tag, id, classList, text, children⟩ := spec
  unfold appendSpec? append?
  by_cases hp : d.contains parent
  · rw [if_pos hp, if_pos hp, Option.map_some, graft, graftAll_eq_foldl (by simp)]
  · rw [if_neg hp, if_neg hp, Option.map_none]

/-- **Main theorem**: a specification that is appended below a node of a reachable document is
    stored whole. Its top gets the next free number, and the specifications below it get the numbers
    behind that one in pre-order, which is also the order in which the document lists them; at each
    of these numbers the specification is read back, at every depth. Nothing else is added, and no
    other element changes than the parent, which has the top as its last child. Where the parent is
    not in the document, the document stays as it is. In the document of a specification, the nodes
    below the root are therefore listed in the order of their numbers. -/
theorem appendSpec?_stores_spec (hd : d.Reachable) (parent : NodeId) (spec : ElementSpec) :
    (parent < d.size → ∃ d', d.appendSpec? parent spec = some (d.size, d') ∧
      d'.specAt? d.size = some spec.explicit ∧
      (∀ i sub, spec.flatten[i]? = some sub → d'.specAt? (d.size + i) = some sub.explicit) ∧
      d'.descendants d.size = List.range' (d.size + 1) (spec.flatten.length - 1) ∧
      d'.size = d.size + spec.flatten.length ∧
      ∀ n < d.size, d'.element? n = (d.element? n).map fun e =>
        if n = parent then { e with children := e.children.push d.size } else e) ∧
    (d.size ≤ parent → d.appendSpec? parent spec = none ∧
      (Operation.appendSpec parent spec).run d = d) ∧
    (ofSpec spec).descendants root = List.range' 1 ((ofSpec spec).size - 1) := by
  refine ⟨?_, ?_, descendants_ofSpec spec⟩
  · intro hp
    have h : WellFormed (d.graft parent spec) := (built_graft hd.built hp spec).wellFormed
    have hlayout := holdsFrom_graft d parent spec
    rw [ElementSpec.length_flatten]
    refine ⟨d.graft parent spec, if_pos (contains_iff.mpr hp), specAt?_of_holdsFrom h hlayout, ?_,
      descendants_of_holdsFrom h hlayout, size_graft d parent spec, ?_⟩
    · intro i sub hsub
      obtain ⟨parent', hsubLayout⟩ := exists_holdsFrom_of_flatten spec hlayout hsub
      exact specAt?_of_holdsFrom h hsubLayout
    · intro n hn
      exact element?_graft_of_lt parent spec hn
  · intro hp
    refine ⟨if_neg ?_, Operation.run_of_refused hp⟩
    rw [contains_iff]
    exact Nat.not_lt_of_ge hp

/-- An item with two parts, appended to the list of the page. -/
theorem appendSpec?_latePage :
    latePage.Reachable ∧ (2 : NodeId) < latePage.size ∧
    ∃ d', latePage.appendSpec? 2 ⟨"li", some "c", none, some "third",
        [⟨"b", none, some "x y", none, []⟩, ⟨"i", none, none, none, []⟩]⟩ = some (6, d') ∧
      d'.specAt? 6 = some ⟨"li", some "c", some "", some "third",
        [⟨"b", none, some "x y", none, []⟩, ⟨"i", none, some "", none, []⟩]⟩ ∧
      d'.specAt? 8 = some ⟨"i", none, some "", none, []⟩ ∧
      d'.descendants 6 = [7, 8] ∧ d'.size = 9 := by
  have hd : latePage.Reachable := .step _ (.ofSpec _)
  have hp : (2 : NodeId) < latePage.size := by decide
  obtain ⟨hstores, -⟩ := appendSpec?_stores_spec hd 2 ⟨"li", some "c", none, some "third",
    [⟨"b", none, some "x y", none, []⟩, ⟨"i", none, none, none, []⟩]⟩
  obtain ⟨d', happend, hspec, hsubs, hbelow, hsize, -⟩ := hstores hp
  exact ⟨hd, hp, d', happend, hspec, hsubs 2 _ rfl, hbelow, hsize⟩

end Document

end TreeQuery
