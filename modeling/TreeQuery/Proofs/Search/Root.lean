import TreeQuery.Proofs.Document.Growth
import TreeQuery.Proofs.Search.Closest
import TreeQuery.Proofs.Selector.Parts

/-! # The document root — a node that no selector names

    Every document has a root that it was not given. Its tag starts with a marker,
    so that no selector can ask for the root by name, whatever is escaped in the
    selector and whatever has been done to the document:

    * **Operations**: an operation never changes a tag, and it changes the id and the
      classes of a node only if it is made for that.
    * **Runs**: the root keeps its tag over any run of operations, and it stays
      without id and classes as long as it is not given any.
    * **Names**: every name in a selector is an identifier, and no identifier starts
      with a marker, letter case aside.

    Main statement: `no_selector_names_root`
-/

namespace TreeQuery

namespace Document

variable {d d' : Document}

/-! ### Operations -/

/-- What is left of an element when a node of its document has been redecorated. -/
structure Operation.Spares (marked : Bool) (e e' : Element) : Prop where
  tag : e'.tag = e.tag
  id : marked = false → e'.id = e.id
  classList : marked = false → e'.classList = e.classList

theorem Operation.Spares.refl (marked : Bool) (e : Element) : Spares marked e e where
  tag := rfl
  id _ := rfl
  classList _ := rfl

/-- **Step**: an operation leaves every tag as it is, and the id and the classes of every node but
    the one that it marks. -/
theorem Operation.exists_spares {op : Operation} (hop : op.outcome? d = some d') {n : NodeId}
    {e : Element} (he : d.element? n = some e) :
    ∃ e', d'.element? n = some e' ∧ Spares (op.marks n) e e' := by
  rcases grows_or_modifies hop with hgrows | ⟨m, f, rfl, hf, hkept⟩
  · -- where elements are added, an old one gains children and nothing else
    obtain ⟨e', he', heq, -⟩ := hgrows.exists_gains he
    exact ⟨e', he', by rw [heq], fun _ => by rw [heq], fun _ => by rw [heq]⟩
  · rw [element?_modify, he]
    by_cases hm : m = n
    · rw [if_pos hm]
      rw [hm] at hkept
      exact ⟨f e, rfl, hf.tag e, fun hmarks => (hkept hmarks e).1, fun hmarks => (hkept hmarks e).2⟩
    · rw [if_neg hm]
      exact ⟨e, rfl, .refl _ e⟩

/-- A refused operation spares everything, too. -/
theorem Operation.exists_spares_run (op : Operation) {n : NodeId} {e : Element}
    (he : d.element? n = some e) :
    ∃ e', (op.run d).element? n = some e' ∧ Spares (op.marks n) e e' := by
  unfold run
  cases hop : op.outcome? d with
  | none => exact ⟨e, he, .refl _ e⟩
  | some d' => exact exists_spares hop he

/-! ### Runs -/

/-- The documents that some run of operations builds in which nothing is done to the id and the
    classes of the document root. -/
inductive ReachableUnmarked : Document → Prop where
  | empty : ReachableUnmarked .empty
  | ofSpec (spec : ElementSpec) : ReachableUnmarked (.ofSpec spec)
  | step {d : Document} (op : Operation) :
      ReachableUnmarked d → op.marks root = false → ReachableUnmarked (op.run d)

theorem ReachableUnmarked.reachable (h : ReachableUnmarked d) : Reachable d := by
  induction h with
  | empty => exact .empty
  | ofSpec spec => exact .ofSpec spec
  | step op _ _ ih => exact .step op ih

/-- A document starts with a root that has its tag and nothing else, also if there is a subtree
    below it. -/
theorem exists_root_ofSpec (spec : ElementSpec) :
    ∃ e, (ofSpec spec).element? root = some e ∧ e.tag = rootTag ∧ e.id = none ∧
      e.classList = "" := by
  have hgrows : Grows empty (fun _ => True) (ofSpec spec) :=
    grows_graft .refl (by simp [root]) spec fun _ _ => trivial
  obtain ⟨e, he, heq, -⟩ := hgrows.exists_gains (n := root) (e := .fresh rootTag none) rfl
  exact ⟨e, he, by rw [heq]; rfl, by rw [heq]; rfl, by rw [heq]; rfl⟩

/-- **Run**: the document root keeps its tag. -/
theorem Reachable.exists_root (h : Reachable d) :
    ∃ e, d.element? root = some e ∧ e.tag = rootTag := by
  induction h with
  | empty => exact ⟨_, rfl, rfl⟩
  | ofSpec spec =>
    obtain ⟨e, he, htag, -⟩ := exists_root_ofSpec spec
    exact ⟨e, he, htag⟩
  | step op _ ih =>
    obtain ⟨e, he, htag⟩ := ih
    obtain ⟨e', he', hspares⟩ := op.exists_spares_run he
    exact ⟨e', he', hspares.tag.trans htag⟩

/-- **Run**: as long as it is not marked, the document root has no id and no classes. -/
theorem ReachableUnmarked.exists_root (h : ReachableUnmarked d) :
    ∃ e, d.element? root = some e ∧ e.id = none ∧ e.classList = "" := by
  induction h with
  | empty => exact ⟨_, rfl, rfl, rfl⟩
  | ofSpec spec =>
    obtain ⟨e, he, -, hid, hclasses⟩ := exists_root_ofSpec spec
    exact ⟨e, he, hid, hclasses⟩
  | step op _ hop ih =>
    obtain ⟨e, he, hid, hclasses⟩ := ih
    obtain ⟨e', he', hspares⟩ := op.exists_spares_run he
    exact ⟨e', he', (hspares.id hop).trans hid, (hspares.classList hop).trans hclasses⟩

end Document

/-! ### Names -/

/-- Only capital letters change in lower case, and none of them becomes a marker. -/
theorem eq_hash_of_toLower {c : Char} (h : c.toLower = '#') : c = '#' := by
  unfold Char.toLower at h
  split at h
  · next hc =>
    obtain ⟨hlow, hhigh⟩ := hc
    have hvalue : (c.val + ('a'.val - 'A'.val)).toNat = '#'.val.toNat := congrArg (·.val.toNat) h
    rw [ge_iff_le, UInt32.le_iff_toNat_le] at hlow
    rw [UInt32.le_iff_toNat_le] at hhigh
    rw [UInt32.toNat_add] at hvalue
    simp only [Char.reduceVal, UInt32.reduceSub, UInt32.reduceToNat] at hlow hhigh hvalue
    omega
  · exact h

/-- An identifier is not the tag of the document root. -/
theorem Element.not_hasTag_of_ident? {e : Element} (he : e.tag = Document.rootTag) {name : String}
    (hname : Lexer.ident? name.toList = some []) : e.hasTag name = false := by
  rw [Bool.eq_false_iff]
  intro hsame
  have hroot : Document.rootTag.toList.map Char.toLower = name.toList.map Char.toLower := by
    rw [← he]
    simpa [hasTag] using hsame
  cases hcs : name.toList with
  | nil => simp [hcs, Document.rootTag] at hroot
  | cons c cs =>
    -- the first character would have to be a marker, where no identifier starts
    rw [hcs] at hroot hname
    have hc : c.toLower = '#' := (List.cons.inj hroot).1.symm
    rw [eq_hash_of_toLower hc, Lexer.ident?_of_marker (.inl rfl)] at hname
    cases hname

namespace Criterion

theorem mem_names_of_tag? {c : Criterion} {tag : String} (h : c.tag? = some tag) :
    tag ∈ c.names := by
  cases c <;> simp_all [tag?, names]

/-- Whatever a criterion with a tag is met by has the tag. -/
theorem isMetBy_eq_false_of_tag? {c : Criterion} {tag : String} (h : c.tag? = some tag)
    {e : Element} (he : e.hasTag tag = false) : c.isMetBy e = false := by
  cases c <;> simp_all [tag?, isMetBy]

/-- An element without id and classes meets no criterion without a tag. -/
theorem isMetBy_eq_false_of_bare {c : Criterion} (h : c.tag? = none) {e : Element}
    (hid : e.id = none) (hclasses : e.classList = "") : c.isMetBy e = false := by
  cases c <;> simp_all [tag?, isMetBy, Element.hasClass, Element.classes, wordsOf]

end Criterion

namespace Document

variable {d : Document} {c : Criterion}

/-- A criterion with a tag is not satisfied by the document root if its names are identifiers. -/
theorem not_satisfies_root_of_tag? (hd : d.Reachable)
    (hnames : ∀ name ∈ c.names, Lexer.ident? name.toList = some []) {tag : String}
    (htag : c.tag? = some tag) : d.satisfies c root = false := by
  obtain ⟨e, he, hroot⟩ := hd.exists_root
  have hident := hnames tag (Criterion.mem_names_of_tag? htag)
  unfold satisfies
  rw [he, Option.any_some]
  exact Criterion.isMetBy_eq_false_of_tag? htag (Element.not_hasTag_of_ident? hroot hident)

/-- As long as it is not marked, the document root satisfies no criterion whose names are
    identifiers. -/
theorem ReachableUnmarked.not_satisfies_root (h : ReachableUnmarked d)
    (hnames : ∀ name ∈ c.names, Lexer.ident? name.toList = some []) :
    d.satisfies c root = false := by
  cases htag : c.tag? with
  | some tag => exact not_satisfies_root_of_tag? h.reachable hnames htag
  | none =>
    obtain ⟨e, he, hid, hclasses⟩ := h.exists_root
    unfold satisfies
    rw [he, Option.any_some]
    exact Criterion.isMetBy_eq_false_of_bare htag hid hclasses

end Document

/-- The names in a token of the standard grammar are identifiers. -/
theorem ident?_of_mem_names {g : Grammar} (hg : Grammar.standard.outcome = .ok g)
    {mode : Selector.Mode} {selector : String} {tokens : List Token}
    (h : (Selector.tokenize g mode selector).outcome = .ok tokens) {t : Token} (ht : t ∈ tokens) :
    ∀ name ∈ t.criterion.names, Lexer.ident? name.toList = some [] :=
  (Criterion.agrees_of_readAs? (Selector.readAs?_of_mem_tokens hg h ht)).names

/-- **No selector names the document root.** Take any reachable document, whatever ids and classes
    its nodes have been given, and any selector under the standard grammar, in either mode. If the
    kind of a token has a tag, the document root does not satisfy the token. If the document root
    has never been given an id or classes, it satisfies no token of the selector at all, so it meets
    no constraint, and going up from a node never ends at it. -/
theorem no_selector_names_root {d : Document} (hd : d.Reachable) {g : Grammar}
    (hg : Grammar.standard.outcome = .ok g) (mode : Selector.Mode) (selector : String) :
    (∀ tokens, (Selector.tokenize g mode selector).outcome = .ok tokens → ∀ t ∈ tokens,
      t.kind = .name ∨ t.kind = .nameAndId ∨ t.kind = .nameAndClass →
      d.satisfies t.criterion Document.root = false) ∧
    (d.ReachableUnmarked →
      (∀ tokens, (Selector.tokenize g mode selector).outcome = .ok tokens → ∀ t ∈ tokens,
        d.satisfies t.criterion Document.root = false) ∧
      ∀ n top, (Engine.closest? ⟨g, mode⟩ d n selector top).outcome ≠
        .ok (some Document.root)) := by
  constructor
  · intro tokens htokens t ht hkind
    obtain ⟨tag, htag⟩ : ∃ tag, t.criterion.tag? = some tag := by
      unfold Token.criterion
      rcases hkind with hkind | hkind | hkind <;> rw [hkind] <;> exact ⟨_, rfl⟩
    exact Document.not_satisfies_root_of_tag? hd (ident?_of_mem_names hg htokens ht) htag
  · intro hunmarked
    have hnone : ∀ tokens, (Selector.tokenize g mode selector).outcome = .ok tokens → ∀ t ∈ tokens,
        d.satisfies t.criterion Document.root = false := by
      intro tokens htokens t ht
      exact hunmarked.not_satisfies_root (ident?_of_mem_names hg htokens ht)
    refine ⟨hnone, ?_⟩
    intro n top hclosest
    cases htokens : (Selector.tokenize g mode selector).outcome with
    | error fault =>
      have herror : (Engine.tokenize ⟨g, mode⟩ selector).outcome = .error (.selector fault) := by
        rw [Engine.tokenize, Journal.outcome_mapFault, htokens]
        rfl
      rw [Engine.closest?, Journal.bind_of_error herror] at hclosest
      cases hclosest
    | ok tokens =>
      have hok : (Engine.tokenize ⟨g, mode⟩ selector).outcome = .ok tokens := by
        rw [Engine.tokenize, Journal.outcome_mapFault, htokens]
        rfl
      rw [Engine.outcome_closest? hok, Query.closestTo?_eq_find?] at hclosest
      -- nothing stands above the root, so it would have to answer a single token
      have hanswered := List.find?_some (Except.ok.inj hclosest)
      obtain ⟨t, rfl, ht⟩ := (Query.isAnsweredTo_root_iff hd.wellFormed).mp hanswered
      rw [hnone [t] htokens t List.mem_cons_self] at ht
      cases ht

/-- A page with one paragraph. -/
def onePage : Document := .ofSpec ⟨"p", none, some "lead", none, []⟩

/-- The same page with an id for the document root. -/
def markedPage : Document := (Document.Operation.setId Document.root (some "top")).run onePage

/-- The tag of the document root can be written with its marker escaped, and it is still not the tag
    that is asked for, even where the id is. -/
theorem no_selector_names_root_escaped :
    markedPage.Reachable ∧ onePage.ReachableUnmarked ∧
    ∃ g, Grammar.standard.outcome = .ok g ∧
      (Selector.tokenize g .strict "\\#document#top").outcome =
        .ok [⟨"\\#document#top", .nameAndId⟩] ∧
      markedPage.satisfies (.parse .id "#top") Document.root = true ∧
      markedPage.satisfies (.parse .nameAndId "\\#document#top") Document.root = false ∧
      (Engine.closest? ⟨g, .strict⟩ onePage 1 "\\#document#top" 0).outcome ≠ .ok (some 0) := by
  have hplain : onePage.ReachableUnmarked := .ofSpec _
  have hmarked : markedPage.Reachable := .step _ (.ofSpec _)
  obtain ⟨g, hg⟩ := Grammar.Standard.exists_standard
  have htokens : (Selector.tokenize g .strict "\\#document#top").outcome =
      .ok [⟨"\\#document#top", .nameAndId⟩] := by
    rw [Selector.outcome_tokenize hg]
    refine Journal.eq_ok_of_toOption ?_
    decide +kernel
  obtain ⟨htagged, -⟩ := no_selector_names_root hmarked hg .strict "\\#document#top"
  obtain ⟨-, hbare⟩ := no_selector_names_root hplain.reachable hg .strict "\\#document#top"
  refine ⟨hmarked, hplain, g, hg, htokens, by decide +kernel, ?_, (hbare hplain).2 1 0⟩
  exact htagged _ htokens _ List.mem_cons_self (.inr (.inl rfl))

end TreeQuery
