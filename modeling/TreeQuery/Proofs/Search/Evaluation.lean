import TreeQuery.Engine
import TreeQuery.Proofs.Search.Candidates
import TreeQuery.Proofs.Selector.Tokens

/-! # Evaluation — what an engine answers once a selector is read

    An engine reads a selector and hands its tokens over to a query. All that it
    answers depends on the tokens alone:

    * **Answers to tokens**: what is found for a list of tokens, without tokens
      nothing.
    * **Engines**: the outcome of every evaluation of a selector in terms of its
      tokens.
    * **Unique ids**: if no two nodes carry one id, the answers below a node are
      all nodes below it that answer the tokens when tested alone.
-/

namespace TreeQuery

/-! ### Answers to tokens -/

namespace Query

/-- Whether a node answers the query that some tokens spell; without tokens there is none. -/
def isAnsweredTo (tokens : List Token) (d : Document) (n : NodeId) : Bool :=
  (ofTokens? tokens).any (·.isAnsweredBy d n)

/-- The answers below a root to the query that some tokens spell. -/
def answersTo (tokens : List Token) (d : Document) (root : Option NodeId) : List NodeId :=
  ((ofTokens? tokens).map (·.answers d root)).getD []

/-- The first node on the way up that answers the query that some tokens spell. -/
def closestTo? (tokens : List Token) (d : Document) (n root : NodeId) : Option NodeId :=
  (ofTokens? tokens).bind (·.closest? d n root)

theorem isAnsweredTo_concat (ancestors : List Token) (key : Token) (d : Document) (n : NodeId) :
    isAnsweredTo (ancestors ++ [key]) d n =
      isAnsweredBy ⟨key.criterion, ancestors.map Token.criterion⟩ d n := by
  unfold isAnsweredTo
  rw [ofTokens?_concat]
  rfl

/-- Without a root nothing is found. -/
theorem answersTo_none (tokens : List Token) (d : Document) : answersTo tokens d none = [] := by
  unfold answersTo
  cases ofTokens? tokens <;> rfl

/-- Going up, the first node is taken that answers when tested alone. -/
theorem closestTo?_eq_find? (tokens : List Token) (d : Document) (n root : NodeId) :
    closestTo? tokens d n root =
      (Document.upTo root (d.lineage n)).find? (isAnsweredTo tokens d) := by
  unfold closestTo? isAnsweredTo
  cases ofTokens? tokens with
  | none =>
    symm
    rw [Option.bind_none, List.find?_eq_none]
    intro m _
    exact Bool.false_ne_true
  | some q => rfl

end Query

/-! ### Engines -/

namespace Engine

variable {e : Engine} {selector : String} {tokens : List Token}

theorem outcome_search (h : (e.tokenize selector).outcome = .ok tokens) (d : Document)
    (root : Option NodeId) :
    (e.search d selector root).outcome = .ok (Query.answersTo tokens d root) := by
  unfold search Query.answersTo
  rw [Journal.outcome_bind, h]
  dsimp only [Except.bind]
  cases Query.ofTokens? tokens <;> rfl

theorem outcome_closest? (h : (e.tokenize selector).outcome = .ok tokens) (d : Document)
    (n root : NodeId) :
    (e.closest? d n selector root).outcome = .ok (Query.closestTo? tokens d n root) := by
  unfold closest?
  rw [Journal.outcome_bind, h]
  rfl

/-- Where the selector cannot be read, a search fails with the same fault. -/
theorem outcome_search_of_error {cause : Fault} (h : (e.tokenize selector).outcome = .error cause)
    (d : Document) (root : Option NodeId) :
    (e.search d selector root).outcome = .error cause := by
  unfold search
  rw [Journal.outcome_bind, h]
  rfl

/-- Where the selector cannot be read, no closest node is looked for. -/
theorem outcome_closest?_of_error {cause : Fault} (h : (e.tokenize selector).outcome = .error cause)
    (d : Document) (n root : NodeId) :
    (e.closest? d n selector root).outcome = .error cause := by
  unfold closest?
  rw [Journal.outcome_bind, h]
  rfl

theorem outcome_select (h : (e.tokenize selector).outcome = .ok tokens) (d : Document)
    (root : Option NodeId) :
    (e.select d selector root).outcome = .ok ⟨selector, Query.answersTo tokens d root⟩ := by
  unfold select
  rw [Journal.outcome_bind, outcome_search h]
  rfl

/-- A standard engine has the standard grammar and the mode that it is made for. -/
theorem grammar_and_mode_of_standard {mode : Selector.Mode}
    (he : (Engine.standard mode).outcome = .ok e) :
    Grammar.standard.outcome = .ok e.grammar ∧ e.mode = mode := by
  obtain ⟨g, hg, hready⟩ := Journal.outcome_bind_eq_ok_iff.mp he
  obtain rfl : (⟨g, mode⟩ : Engine) = e := Except.ok.inj hready
  obtain ⟨definitions, hstandard⟩ := Grammar.Standard.outcome_standard
  rw [Journal.outcome_mapFault, hstandard] at hg
  rw [hstandard]
  exact ⟨congrArg _ (Except.ok.inj hg), rfl⟩

/-- The standard engine reads a selector as the tokens among the hits of the lexer. -/
theorem outcome_tokenize_standard {mode : Selector.Mode}
    (he : (Engine.standard mode).outcome = .ok e)
    (h : (Selector.tokensOf mode (normalize selector).toList none
      (Lexer.hits (normalize selector).toList)).outcome = .ok tokens) :
    (e.tokenize selector).outcome = .ok tokens := by
  obtain ⟨hgrammar, rfl⟩ := grammar_and_mode_of_standard he
  unfold tokenize
  rw [Journal.outcome_mapFault, Selector.outcome_tokenize hgrammar, h]
  rfl

/-- There is a standard engine. -/
theorem exists_standard (mode : Selector.Mode) : ∃ e, (Engine.standard mode).outcome = .ok e := by
  obtain ⟨definitions, hstandard⟩ := Grammar.Standard.outcome_standard
  unfold standard
  rw [Journal.outcome_bind, Journal.outcome_mapFault, hstandard]
  exact ⟨_, rfl⟩

end Engine

/-! ### Unique ids -/

namespace Document

/-- Each id is carried by one node at most. -/
def UniqueIds (d : Document) : Prop :=
  ∀ key m m', d.hasId key m = true → d.hasId key m' = true → m = m'

/-- Only nodes of the document satisfy a criterion. -/
theorem lt_size_of_satisfies {d : Document} {c : Criterion} {n : NodeId}
    (hn : d.satisfies c n = true) : n < d.size := by
  unfold satisfies at hn
  cases he : d.element? n with
  | none =>
    rw [he] at hn
    cases hn
  | some e => exact lt_size_of_element? he

theorem hasId_iff {d : Document} {key : String} {m : NodeId} :
    d.hasId key m = true ↔ (d.element? m).bind (·.id) = some key := by
  unfold hasId
  cases d.element? m <;> simp

/-- To see that ids are unique it is enough to look at the nodes of the document. -/
theorem uniqueIds_iff {d : Document} :
    d.UniqueIds ↔ ∀ m < d.size, ∀ m' < d.size,
      ((d.element? m).bind (·.id)).isSome = true →
        (d.element? m).bind (·.id) = (d.element? m').bind (·.id) → m = m' := by
  unfold UniqueIds
  simp only [hasId_iff]
  constructor
  · intro h m _ m' _ hsome hsame
    obtain ⟨key, hkey⟩ := Option.isSome_iff_exists.mp hsome
    exact h key m m' hkey (hsame ▸ hkey)
  · intro h key m m' hm hm'
    have hsize : ∀ n, (d.element? n).bind (·.id) = some key → n < d.size := by
      intro n hn
      obtain ⟨e, he, -⟩ := Option.bind_eq_some_iff.mp hn
      exact lt_size_of_element? he
    exact h m (hsize m hm) m' (hsize m' hm') (by rw [hm]; rfl) (hm.trans hm'.symm)

instance (d : Document) : Decidable d.UniqueIds := decidable_of_iff _ uniqueIds_iff.symm

theorem UniqueIds.atMostOneCarrier {d : Document} (h : d.UniqueIds) (root : NodeId)
    (key : String) : d.AtMostOneCarrier root key :=
  fun m m' _ _ hm hm' => h key m m' hm hm'

end Document

namespace Query

variable {d : Document}

/-- With unique ids, searching below a node finds what testing every node below it finds. -/
theorem answersTo_eq_filter (h : d.WellFormed) (hids : d.UniqueIds) (tokens : List Token)
    (root : NodeId) :
    answersTo tokens d (some root) = (d.descendants root).filter (isAnsweredTo tokens d) := by
  unfold answersTo isAnsweredTo
  cases ofTokens? tokens with
  | none => exact (List.filter_eq_nil_iff.mpr fun m _ => Bool.false_ne_true).symm
  | some q =>
    exact answers_eq_filter_descendants h q root fun key _ => hids.atMostOneCarrier root key

theorem mem_answersTo_iff (h : d.WellFormed) (hids : d.UniqueIds) {tokens : List Token}
    {root m : NodeId} :
    m ∈ answersTo tokens d (some root) ↔ d.IsAbove root m ∧ isAnsweredTo tokens d m = true := by
  rw [answersTo_eq_filter h hids, List.mem_filter, Document.mem_descendants_iff h]

end Query

end TreeQuery
