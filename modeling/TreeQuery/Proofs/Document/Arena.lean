import TreeQuery.Proofs.Document.WellFormed

/-! # Arenas — documents whose root stands beside the table

    A document can be kept as its root and a table of the other elements. The root
    then needs no slot of its own, it exists whatever is in the table, and the
    element with the number n + 1 is in slot n. An element is appended in two
    steps: the parent takes the number of the new child, which may be refused, and
    the element is stored.

    This file defines:
    - `Arena`: a root and the table of the other elements, with the same operations
      as a document
    - `Arena.document`: the document with the root in front of the other elements

    Both say the same of every node (`element?_document`), and every operation is
    refused or done on both alike (`document_outcome?`). So the documents that can be
    built are the documents of the arenas that can be built (`reachable_iff`), and
    whatever holds of the one holds of the other.
-/

namespace TreeQuery

/-- A document whose root stands beside the table of the other elements. -/
structure Arena where
  root : Element
  slots : Array Element

namespace Arena

/-! ### Operations -/

/-- An arena that has only its root. -/
def empty : Arena := ⟨.fresh Document.rootTag none, #[]⟩

/-- The number of nodes, the root included. -/
def size (a : Arena) : Nat := a.slots.size + 1

/-- Whether nothing hangs below the root. -/
def isEmpty (a : Arena) : Bool := a.slots.isEmpty

/-- The element of a node. -/
def element? (a : Arena) : NodeId → Option Element
  | 0 => some a.root
  | slot + 1 => a.slots[slot]?

/-- Changes the element of a node, if there is one. -/
def modify? (a : Arena) (f : Element → Element) : NodeId → Option Arena
  | 0 => some { a with root := f a.root }
  | slot + 1 =>
    if slot < a.slots.size then some { a with slots := a.slots.modify slot f } else none

/-- Stores an element in the next slot. -/
def store (a : Arena) (e : Element) : Arena := { a with slots := a.slots.push e }

/-- Appends an element below a node and tells its number. -/
def append? (a : Arena) (parent : NodeId) (tag : String) : Option (NodeId × Arena) :=
  (a.modify? (·.adopt a.size) parent).map fun b => (a.size, b.store (.fresh tag (some parent)))

mutual

/-- Appends a subtree below a node and tells the number of its topmost element. -/
def appendSpec? (a : Arena) (parent : NodeId) : ElementSpec → Option (NodeId × Arena)
  | ⟨tag, id, classList, text, children⟩ =>
    (a.append? parent tag).map fun (node, b) =>
      let fill (e : Element) : Element := { e with id, classList := classList.getD "", text }
      (node, ((b.modify? fill node).getD b).appendAll node children)

/-- Appends several subtrees below a node, one after another, and does not look at refusals. -/
def appendAll (a : Arena) (parent : NodeId) : List ElementSpec → Arena
  | [] => a
  | spec :: specs => (((a.appendSpec? parent spec).map (·.2)).getD a).appendAll parent specs

end

/-- The arena whose root has the given subtree below it. -/
def ofSpec (spec : ElementSpec) : Arena :=
  ((empty.appendSpec? Document.root spec).map (·.2)).getD empty

/-- The arena after an operation, unless the operation is refused. -/
def outcome? (a : Arena) : Document.Operation → Option Arena
  | .append parent tag => (a.append? parent tag).map (·.2)
  | .appendSpec parent spec => (a.appendSpec? parent spec).map (·.2)
  | .setId n id => a.modify? (fun e => { e with id }) n
  | .setClasses n classList => a.modify? (fun e => { e with classList }) n
  | .setText n text => a.modify? (fun e => { e with text }) n

/-- The arenas that some run of operations builds. -/
inductive Reachable : Arena → Prop where
  | empty : Reachable .empty
  | ofSpec (spec : ElementSpec) : Reachable (.ofSpec spec)
  | step {a : Arena} (op : Document.Operation) : Reachable a → Reachable ((a.outcome? op).getD a)

/-! ### The document of an arena -/

/-- The root in front of the other elements. -/
def document (a : Arena) : Document := ⟨#[a.root] ++ a.slots⟩

variable (a : Arena)

@[simp] theorem size_document : a.document.size = a.size := by
  simp [document, Document.size, size, Nat.add_comm]

theorem isEmpty_document : a.document.isEmpty = a.isEmpty := by
  simp [Document.isEmpty, size, isEmpty, Array.isEmpty]

theorem contains_document {n : NodeId} : a.document.contains n = true ↔ n < a.size := by
  rw [Document.contains_iff, size_document]

/-- **Nodes**: the document has the elements of the arena under the same numbers. -/
theorem element?_document (n : NodeId) : a.document.element? n = a.element? n := by
  cases n <;> simp [document, Document.element?, element?, Array.getElem?_append]

theorem eq_document_of_element? {d : Document} (h : ∀ n, a.element? n = d.element? n) :
    a.document = d := by
  obtain ⟨elements⟩ := d
  refine congrArg Document.mk (Array.ext_getElem? fun n => ?_)
  exact (element?_document a n).trans (h n)

theorem document_store (e : Element) : (a.store e).document = ⟨a.document.elements.push e⟩ := by
  simp only [document, store, Array.append_push]

/-! ### Operations on both -/

/-- A change is refused or made on both alike. -/
theorem document_modify? (f : Element → Element) (n : NodeId) :
    (a.modify? f n).map document =
      if a.document.contains n then some (a.document.modify n f) else none := by
  cases n with
  | zero =>
    have hroot : a.document.contains 0 = true := (contains_document a).mpr (Nat.succ_pos _)
    rw [if_pos hroot]
    refine congrArg some (eq_document_of_element? _ fun n => ?_)
    rw [Document.element?_modify, element?_document]
    cases n <;> rfl
  | succ slot =>
    have hcontains : a.document.contains (slot + 1) = true ↔ slot < a.slots.size := by
      rw [contains_document]
      exact Nat.succ_lt_succ_iff
    simp only [modify?, hcontains]
    by_cases hslot : slot < a.slots.size
    · rw [if_pos hslot, if_pos hslot]
      refine congrArg some (eq_document_of_element? _ fun n => ?_)
      rw [Document.element?_modify, element?_document]
      cases n with
      | zero => rfl
      | succ other => simp [element?, Array.getElem?_modify]
    · rw [if_neg hslot, if_neg hslot]
      rfl

theorem exists_modify? (f : Element → Element) {n : NodeId} (h : n < a.size) :
    ∃ b, a.modify? f n = some b ∧ b.document = a.document.modify n f := by
  have hboth := document_modify? a f n
  rw [if_pos ((contains_document a).mpr h)] at hboth
  exact Option.map_eq_some_iff.mp hboth

theorem modify?_eq_none (f : Element → Element) {n : NodeId} (h : ¬n < a.size) :
    a.modify? f n = none := by
  have hboth := document_modify? a f n
  rw [if_neg fun hn => h ((contains_document a).mp hn)] at hboth
  exact Option.map_eq_none_iff.mp hboth

theorem exists_append? {parent : NodeId} (h : parent < a.size) (tag : String) :
    ∃ b, a.append? parent tag = some (a.size, b) ∧ b.document = a.document.push parent tag := by
  obtain ⟨b, hb, hadopted⟩ := exists_modify? a (·.adopt a.size) h
  refine ⟨b.store (.fresh tag (some parent)), ?_, ?_⟩
  · rw [append?, hb, Option.map_some]
  · rw [document_store, hadopted, Document.push, size_document]

theorem append?_eq_none {parent : NodeId} (h : ¬parent < a.size) (tag : String) :
    a.append? parent tag = none := by
  rw [append?, modify?_eq_none a _ h, Option.map_none]

/-- An element is refused or appended on both alike, with the same number. -/
theorem document_append? (parent : NodeId) (tag : String) :
    (a.append? parent tag).map (Prod.map id document) = a.document.append? parent tag := by
  unfold Document.append?
  by_cases h : parent < a.size
  · obtain ⟨b, hb, hpushed⟩ := exists_append? a h tag
    rw [if_pos ((contains_document a).mpr h), hb, ← hpushed, size_document]
    rfl
  · rw [if_neg fun hn => h ((contains_document a).mp hn), append?_eq_none a h, Option.map_none]

mutual

/-- A subtree below a node of the arena is appended on both alike. -/
theorem exists_appendSpec? (a : Arena) {parent : NodeId} (h : parent < a.size) :
    ∀ spec, ∃ b, a.appendSpec? parent spec = some (a.size, b) ∧
      b.document = a.document.graft parent spec
  | ⟨tag, id, classList, text, children⟩ => by
    -- the element is appended, then it is filled in, and only then gets children of its own
    obtain ⟨b, hb, hpushed⟩ := exists_append? a h tag
    have hnode : a.size < b.size := by
      rw [← size_document b, hpushed, Document.size_push, size_document]
      exact Nat.lt_succ_self _
    obtain ⟨c, hc, hfilled⟩ := exists_modify? b
      (fun e => { e with id, classList := classList.getD "", text }) hnode
    have hkept : a.size < c.size := by
      rw [← size_document c, hfilled, Document.size_modify, size_document]
      exact hnode
    refine ⟨c.appendAll a.size children, ?_, ?_⟩
    · simp only [appendSpec?, hb, Option.map_some, hc, Option.getD_some]
    · rw [document_appendAll c hkept children, hfilled, hpushed, Document.graft, size_document]

theorem document_appendAll (a : Arena) {parent : NodeId} (h : parent < a.size) :
    ∀ specs, (a.appendAll parent specs).document = a.document.graftAll parent specs
  | [] => by rw [appendAll, Document.graftAll]
  | spec :: specs => by
    obtain ⟨b, hb, hgrafted⟩ := exists_appendSpec? a h spec
    have hkept : parent < b.size := by
      rw [← size_document b, hgrafted, Document.size_graft, size_document]
      exact Nat.lt_add_right _ h
    rw [appendAll, hb, Option.map_some, Option.getD_some, document_appendAll b hkept specs,
      hgrafted, Document.graftAll]

end

theorem appendSpec?_eq_none {parent : NodeId} (h : ¬parent < a.size) (spec : ElementSpec) :
    a.appendSpec? parent spec = none := by
  obtain ⟨tag, id, classList, text, children⟩ := spec
  rw [appendSpec?, append?_eq_none a h, Option.map_none]

/-- A subtree is refused or appended on both alike, with the same number. -/
theorem document_appendSpec? (parent : NodeId) (spec : ElementSpec) :
    (a.appendSpec? parent spec).map (Prod.map id document) =
      a.document.appendSpec? parent spec := by
  unfold Document.appendSpec?
  by_cases h : parent < a.size
  · obtain ⟨b, hb, hgrafted⟩ := exists_appendSpec? a h spec
    rw [if_pos ((contains_document a).mpr h), hb, ← hgrafted, size_document]
    rfl
  · rw [if_neg fun hn => h ((contains_document a).mp hn), appendSpec?_eq_none a h,
      Option.map_none]

/-! ### Runs on both -/

theorem document_empty : empty.document = Document.empty := rfl

theorem document_ofSpec (spec : ElementSpec) : (ofSpec spec).document = Document.ofSpec spec := by
  have hroot : Document.root < empty.size := Nat.succ_pos 0
  obtain ⟨b, hb, hgrafted⟩ := exists_appendSpec? empty hroot spec
  unfold ofSpec
  rw [hb]
  exact hgrafted

/-- **Operations**: an operation is refused or done on both alike. -/
theorem document_outcome? (op : Document.Operation) :
    (a.outcome? op).map document = op.outcome? a.document := by
  cases op with
  | append parent tag =>
    simp only [outcome?, Document.Operation.outcome?, ← document_append?, Option.map_map]
    rfl
  | appendSpec parent spec =>
    simp only [outcome?, Document.Operation.outcome?, ← document_appendSpec?, Option.map_map]
    rfl
  | setId n id => exact document_modify? a (fun e => { e with id }) n
  | setClasses n classList => exact document_modify? a (fun e => { e with classList }) n
  | setText n text => exact document_modify? a (fun e => { e with text }) n

theorem document_step (op : Document.Operation) :
    ((a.outcome? op).getD a).document = op.run a.document := by
  unfold Document.Operation.run
  rw [← document_outcome?]
  cases a.outcome? op <;> rfl

/-- **Main theorem**: the documents that can be built are those of the arenas that can be built. -/
theorem reachable_iff {d : Document} : d.Reachable ↔ ∃ a : Arena, a.Reachable ∧ a.document = d := by
  constructor
  · intro h
    induction h with
    | empty => exact ⟨.empty, .empty, document_empty⟩
    | ofSpec spec => exact ⟨.ofSpec spec, .ofSpec spec, document_ofSpec spec⟩
    | step op _ ih =>
      obtain ⟨a, ha, rfl⟩ := ih
      exact ⟨_, .step op ha, document_step a op⟩
  · rintro ⟨a, ha, rfl⟩
    induction ha with
    | empty => exact .empty
    | ofSpec spec =>
      rw [document_ofSpec]
      exact .ofSpec spec
    | @step a op _ ih =>
      rw [document_step]
      exact .step op ih

end Arena

end TreeQuery
