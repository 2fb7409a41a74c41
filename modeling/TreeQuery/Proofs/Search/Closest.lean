import TreeQuery.Proofs.Document.Tree
import TreeQuery.Proofs.Search.Evaluation

/-! # Closest — going up finds what searching from the top finds

    The first node on the way up from a node is looked for by testing each node
    alone, and the way is cut behind a root if the root is on it. Searching goes
    down from the document root and never reports the document root itself.

    * **The way up**: a relation with one rule for each way to end and one for
      going on, met by the list of nodes that is tested.
    * **Agreement**: below the document root, a node answers a selector when
      tested alone iff a search from the document root finds it. The document
      root has no ancestors, so it answers single tokens only.
-/

namespace TreeQuery

namespace Document

variable {d : Document}

/-! ### The way up -/

/-- The way up from a node to a root if the root is on it, else to the document root. -/
inductive IsWayUp (d : Document) (stop : NodeId) : NodeId → List NodeId → Prop where
  | stop : IsWayUp d stop stop [stop]
  | top : root ≠ stop → IsWayUp d stop root [root]
  | up {n p : NodeId} {way : List NodeId} :
      n ≠ stop → d.parent? n = some p → IsWayUp d stop p way → IsWayUp d stop n (n :: way)

theorem isWayUp_upTo (h : WellFormed d) (stop : NodeId) {n : NodeId} (hn : n < d.size) :
    d.IsWayUp stop n (upTo stop (d.lineage n)) := by
  induction n using Nat.strongRecOn with
  | ind n ih =>
    rw [lineage_eq, upTo]
    by_cases hstop : n = stop
    · rw [if_pos hstop, hstop]
      exact .stop
    · rw [if_neg hstop]
      cases hp : d.parent? n with
      | none =>
        obtain rfl := (parent?_eq_none_iff h hn).mp hp
        rw [ancestors_of_parent?_eq_none hp]
        exact .top hstop
      | some p =>
        have hlt : p < n := IsParent.lt h hp
        rw [ancestors_of_isParent h hp, ← lineage_eq]
        exact .up hstop hp (ih p hlt (Nat.lt_trans hlt hn))

/-- Every node but the document root hangs below the document root. -/
theorem isAbove_root (h : WellFormed d) {n : NodeId} (hn : n < d.size) (hne : n ≠ root) :
    d.IsAbove root n := by
  have hreached : Relation.ReflTransGen d.IsParent root n :=
    (reflTransGen_children h hn).lift id fun p c hc => (mem_children_iff h).mp hc
  rcases Relation.reflTransGen_iff_eq_or_transGen.mp hreached with heq | habove
  · exact absurd heq hne
  · exact habove

end Document

/-! ### Agreement -/

namespace Query

variable {d : Document} {tokens : List Token}

/-- What a search from the document root and the document root by itself say of a node: the search
    has found the node, or the node is the document root and satisfies the only token. -/
def AnswersFromTop (d : Document) (tokens : List Token) (found : List NodeId) (m : NodeId) : Prop :=
  (m ≠ Document.root ∧ m ∈ found) ∨
    (m = Document.root ∧ ∃ t, tokens = [t] ∧ d.satisfies t.criterion m = true)

theorem lt_size_of_isAnsweredTo {n : NodeId} (hn : isAnsweredTo tokens d n = true) :
    n < d.size := by
  unfold isAnsweredTo at hn
  cases hq : ofTokens? tokens with
  | none =>
    rw [hq] at hn
    cases hn
  | some q =>
    rw [hq] at hn
    exact Document.lt_size_of_satisfies (Bool.and_eq_true_iff.mp hn).1

/-- The document root has no ancestors that could satisfy a constraint. -/
theorem isAnsweredTo_root_iff (h : d.WellFormed) :
    isAnsweredTo tokens d Document.root = true ↔
      ∃ t, tokens = [t] ∧ d.satisfies t.criterion Document.root = true := by
  have hparent : d.parent? Document.root = none :=
    (Document.parent?_eq_none_iff h h.size_pos).mpr rfl
  rcases List.eq_nil_or_concat' tokens with rfl | ⟨ancestors, key, rfl⟩
  · constructor
    · intro hnone
      cases hnone
    · rintro ⟨t, ht, -⟩
      cases ht
  · rw [isAnsweredTo_concat, isAnsweredBy, hparent, Bool.and_eq_true]
    show _ ∧ (ancestors.map Token.criterion).isEmpty = true ↔ _
    rw [List.isEmpty_iff, List.map_eq_nil_iff]
    constructor
    · rintro ⟨hkey, rfl⟩
      exact ⟨key, rfl, hkey⟩
    · rintro ⟨t, ht, hkey⟩
      obtain ⟨hancestors, hlast⟩ := List.append_inj' (ht.trans (List.nil_append [t]).symm) rfl
      rw [List.singleton_inj.mp hlast]
      exact ⟨hkey, hancestors⟩

/-- A node answers when tested alone iff searching from the top says that it does. -/
theorem isAnsweredTo_iff_answersFromTop (h : d.WellFormed) (hids : d.UniqueIds) {m : NodeId} :
    isAnsweredTo tokens d m = true ↔
      AnswersFromTop d tokens (answersTo tokens d (some Document.root)) m := by
  unfold AnswersFromTop
  rw [mem_answersTo_iff h hids]
  by_cases hroot : m = Document.root
  · rw [hroot, isAnsweredTo_root_iff h]
    simp
  · constructor
    · intro hm
      exact .inl ⟨hroot, Document.isAbove_root h (lt_size_of_isAnsweredTo hm) hroot, hm⟩
    · rintro (⟨-, -, hm⟩ | ⟨heq, -⟩)
      · exact hm
      · exact absurd heq hroot

/-- **Main theorem**: on every reachable document with unique ids, the node that an engine finds
    going up from a node is the first one on the way up that a search from the document root finds,
    or the document root where it satisfies a selector of one token. Nothing is found iff there is
    no such node on the way. -/
theorem closest?_eq_first_answersFromTop (hd : d.Reachable) (hids : d.UniqueIds) (e : Engine)
    {selector : String} (hselector : (e.tokenize selector).outcome = .ok tokens)
    {n : NodeId} (hn : n < d.size) (root : NodeId) :
    ∃ way found closest, d.IsWayUp root n way ∧
      (e.search d selector (some Document.root)).outcome = .ok found ∧
      (e.closest? d n selector root).outcome = .ok closest ∧
      (∀ m, closest = some m ↔ ∃ before after, way = before ++ m :: after ∧
        AnswersFromTop d tokens found m ∧ ∀ k ∈ before, ¬AnswersFromTop d tokens found k) ∧
      (closest = none ↔ ∀ m ∈ way, ¬AnswersFromTop d tokens found m) := by
  have h := hd.wellFormed
  refine ⟨_, _, _, Document.isWayUp_upTo h root hn, Engine.outcome_search hselector d _,
    Engine.outcome_closest? hselector d n root, ?_, ?_⟩
  · intro m
    rw [closestTo?_eq_find?, List.find?_eq_some_iff_append]
    simp only [← isAnsweredTo_iff_answersFromTop h hids, Bool.not_eq_true']
    constructor
    · rintro ⟨hm, before, after, hway, hbefore⟩
      exact ⟨before, after, hway, hm, fun k hk => by simp [hbefore k hk]⟩
    · rintro ⟨before, after, hway, hm, hbefore⟩
      exact ⟨hm, before, after, hway, fun k hk => by simpa using hbefore k hk⟩
  · rw [closestTo?_eq_find?, List.find?_eq_none]
    simp only [← isAnsweredTo_iff_answersFromTop h hids]

/-- A navigation with a link in it. -/
def navigation : Document :=
  .ofSpec ⟨"nav", none, some "menu", none, [⟨"a", some "home", none, none,
    [⟨"em", none, none, none, []⟩]⟩]⟩

/-- Going up from the emphasis to the navigation, the link is met first. -/
theorem closest?_navigation :
    navigation.Reachable ∧ navigation.UniqueIds ∧ (3 : NodeId) < navigation.size ∧
    ∃ (e : Engine) (tokens : List Token) (found : List NodeId),
      (e.tokenize ".menu a#home").outcome = .ok tokens ∧
      (e.search navigation ".menu a#home" (some 0)).outcome = .ok found ∧
      (e.closest? navigation 3 ".menu a#home" 1).outcome = .ok (some 2) ∧
      AnswersFromTop navigation tokens found 2 := by
  have hd : navigation.Reachable := .ofSpec _
  have hids : navigation.UniqueIds := by decide
  have hn : (3 : NodeId) < navigation.size := by decide
  obtain ⟨e, he⟩ := Engine.exists_standard .strict
  have hselector : (e.tokenize ".menu a#home").outcome =
      .ok [⟨".menu", .className⟩, ⟨"a#home", .nameAndId⟩] := by
    refine Engine.outcome_tokenize_standard he (Journal.eq_ok_of_toOption ?_)
    decide +kernel
  obtain ⟨way, found, closest, -, hfound, hclosest, hfirst, -⟩ :=
    closest?_eq_first_answersFromTop hd hids e hselector hn 1
  have hlink : closest = some 2 := by
    rw [Engine.outcome_closest? hselector] at hclosest
    rw [← Except.ok.inj hclosest]
    decide +kernel
  obtain ⟨before, after, -, hmet, -⟩ := (hfirst 2).mp hlink
  exact ⟨hd, hids, hn, e, _, found, hselector, hfound, hlink ▸ hclosest, hmet⟩

end Query

end TreeQuery
