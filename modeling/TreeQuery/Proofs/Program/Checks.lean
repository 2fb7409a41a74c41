import TreeQuery.Program.Run
import TreeQuery.Proofs.Document.Growth
import TreeQuery.Proofs.Search.Closest
import TreeQuery.Proofs.Search.Evaluation

/-! # Checks — what an action has to pass before it writes

    An action writes nothing until everything about it has been checked: the file of
    the tree holds a tree, an element of the tree carries the id to start from, and
    the selector can be read. Which of these there are depends on the action, and
    their order decides what is reported when several of them fail.

    * **Checks**: when a check is passed, and which faults belong to it.
    * **Lines**: what an action writes, in terms of the engine and the document.
    * **Actions**: an action writes its lines if all checks are passed, and
      otherwise fails with a fault of the first check that is not.
-/

namespace TreeQuery

/-! ### Carriers of an id -/

namespace Document

theorem not_hasId_root_ofSpec (spec : ElementSpec) (key : String) :
    ¬(ofSpec spec).hasId key root = true := by
  have hgrows : Grows empty (fun _ => True) (ofSpec spec) :=
    grows_graft .refl (Nat.lt_succ_self 0) spec fun _ _ => trivial
  obtain ⟨e, he, heq, -⟩ := hgrows.exists_gains (show empty.element? root = some _ from rfl)
  rw [hasId_iff, he, heq]
  exact nofun

/-- In the document of a specification an id is found unless no node carries it. -/
theorem findById?_ofSpec_eq_none_iff {spec : ElementSpec} {key : String} :
    (ofSpec spec).findById? root key = none ↔ ∀ n, ¬(ofSpec spec).hasId key n = true := by
  have hwell : WellFormed (ofSpec spec) := (Reachable.ofSpec spec).built.wellFormed
  unfold findById?
  rw [List.find?_eq_none]
  constructor
  · intro h n hn
    obtain ⟨e, he, _⟩ := Option.bind_eq_some_iff.mp (hasId_iff.mp hn)
    have hne : n ≠ root := by
      rintro rfl
      exact not_hasId_root_ofSpec spec key hn
    exact h n ((mem_descendants_iff hwell).mpr (isAbove_root hwell (lt_size_of_element? he) hne)) hn
  · intro h n _
    exact h n

end Document

namespace Program

/-! ### Checks -/

/-- The file of a tree holds the description of a document. -/
def Holds (files : Command.Files) (path : Raw) (d : Document) : Prop :=
  ∃ text spec, files.read path = .ok text ∧ ElementSpec.ofString? text = some spec ∧
    Document.ofSpec spec = d

/-- What is checked before an action writes anything. -/
inductive Check where
  /-- The file holds a tree. -/
  | tree (path : Raw)
  /-- An element of the tree in the file carries the id. -/
  | start (path : Raw) (key : String)
  /-- The selector can be read; where it cannot, the fault is told with what it was read for. -/
  | reading (selector : String) (told : Engine.Fault → Command.Fault)

/-- The checks of an action, in order. -/
def Action.checks : Action → List Check
  | .tokenize selector => [.reading selector (.notTokenized selector)]
  | .search tree selector => [.tree tree, .reading selector (.notEvaluated selector)]
  | .closest tree start selector =>
    [.tree tree, .start tree start, .reading selector (.notEvaluated selector)]

variable (engine : Engine) (files : Command.Files)

/-- Whether a check is passed. -/
def Check.Passed : Check → Prop
  | .tree path => ∃ d, Holds files path d
  | .start path key => ∃ d, Holds files path d ∧ ∃ n, d.hasId key n = true
  | .reading selector _ => ∃ tokens, (engine.tokenize selector).outcome = .ok tokens

/-- Whether a fault is what a check reports. A file that cannot be read as a text, and a text that
    describes no tree, are reported with the cause. -/
def Check.Blames : Check → Command.Fault → Prop
  | .tree path, fault =>
    (∃ cause, files.read path = .error cause ∧ fault = .unreadableTree path cause) ∨
      ∃ text, files.read path = .ok text ∧ ElementSpec.ofString? text = none ∧
        fault = .invalidTree path (files.refusal text)
  | .start _ key, fault => fault = .unknownNode key
  | .reading selector told, fault =>
    ∃ cause, (engine.tokenize selector).outcome = .error cause ∧ fault = told cause

/-- A check is the first of some checks that is not passed, and reports a fault. -/
def FailsFirst (checks : List Check) (fault : Command.Fault) : Prop :=
  ∃ passed check others, checks = passed ++ check :: others ∧
    (∀ c ∈ passed, c.Passed engine files) ∧ ¬check.Passed engine files ∧
    check.Blames engine files fault

/-! ### Lines -/

/-- The lines that an action writes: the tokens of the selector, the paths of the nodes found, in
    the order of the search, or at most one path, of the closest node. -/
def Action.Writes : Action → List String → Prop
  | .tokenize selector, lines =>
    ∃ tokens, (engine.tokenize selector).outcome = .ok tokens ∧
      lines = tokens.map fun t => t.kind.label ++ "\t" ++ t.text
  | .search tree selector, lines =>
    ∃ d found, Holds files tree d ∧
      (engine.search d selector (some Document.root)).outcome = .ok found ∧
      lines = found.map d.path
  | .closest tree start selector, lines =>
    ∃ d node found?, Holds files tree d ∧ d.findById? Document.root start = some node ∧
      (engine.closest? d node selector Document.root).outcome = .ok found? ∧
      lines = (found?.map d.path).toList

/-! ### Actions -/

variable {engine files}

theorem FailsFirst.not_forall {checks : List Check} {fault : Command.Fault}
    (h : FailsFirst engine files checks fault) : ¬∀ c ∈ checks, c.Passed engine files := by
  obtain ⟨passed, check, others, rfl, _, hfails, _⟩ := h
  intro hall
  exact hfails (hall check (List.mem_append_right passed List.mem_cons_self))

theorem FailsFirst.head {check : Check} {fault : Command.Fault}
    (hfails : ¬check.Passed engine files) (hblames : check.Blames engine files fault)
    (others : List Check) : FailsFirst engine files (check :: others) fault :=
  ⟨[], check, others, rfl, List.forall_mem_nil _, hfails, hblames⟩

theorem FailsFirst.cons {check : Check} {checks : List Check} {fault : Command.Fault}
    (hpassed : check.Passed engine files) (h : FailsFirst engine files checks fault) :
    FailsFirst engine files (check :: checks) fault := by
  obtain ⟨passed, failing, others, rfl, hall, hfails⟩ := h
  exact ⟨check :: passed, failing, others, rfl, List.forall_mem_cons.mpr ⟨hpassed, hall⟩, hfails⟩

/-- A selector that cannot be read fails its check. -/
theorem failsFirst_reading {selector : String} {cause : Engine.Fault}
    (h : (engine.tokenize selector).outcome = .error cause)
    (told : Engine.Fault → Command.Fault) :
    FailsFirst engine files [.reading selector told] (told cause) := by
  refine .head ?_ ?_ []
  · rintro ⟨tokens, htokens⟩
    rw [h] at htokens
    cases htokens
  · exact ⟨cause, h, rfl⟩

theorem Holds.load_eq {path : Raw} {d : Document} (h : Holds files path d) :
    Command.load files path = .ok d := by
  obtain ⟨text, spec, htext, hspec, rfl⟩ := h
  unfold Command.load
  rw [htext]
  dsimp only
  rw [hspec]

/-- A file whose tree cannot be loaded fails its check. -/
theorem failsFirst_tree {path : Raw} {fault : Command.Fault}
    (hload : Command.load files path = .error fault)
    (hblames : (Check.tree path).Blames engine files fault) (others : List Check) :
    FailsFirst engine files (.tree path :: others) fault := by
  refine .head ?_ hblames others
  rintro ⟨d, hd⟩
  rw [hd.load_eq] at hload
  cases hload

theorem not_passed_tree {path : Raw} {cause : String} (hread : files.read path = .error cause) :
    ¬(Check.tree path).Passed engine files := by
  rintro ⟨d, text, spec, htext, -⟩
  rw [hread] at htext
  cases htext

/-- Where the file of the tree cannot be read, that is what is reported, and with the cause. -/
theorem FailsFirst.eq_unreadableTree {path : Raw} {cause : String} {others : List Check}
    {fault : Command.Fault} (hread : files.read path = .error cause)
    (h : FailsFirst engine files (.tree path :: others) fault) :
    fault = .unreadableTree path cause := by
  obtain ⟨passed, check, rest, hchecks, hpassed, -, hblames⟩ := h
  cases passed with
  | cons first _ =>
    -- no check is passed before that of the tree, and that one is not
    obtain ⟨rfl, _⟩ := List.cons.inj hchecks
    exact absurd (hpassed _ List.mem_cons_self) (not_passed_tree hread)
  | nil =>
    obtain ⟨rfl, _⟩ := List.cons.inj hchecks
    rcases hblames with ⟨other, hother, rfl⟩ | ⟨text, htext, -⟩
    · rw [Except.error.inj (hread.symm.trans hother)]
    · rw [hread] at htext
      cases htext

/-- Loading a tree gives the document that its file holds, or a fault of the check of the file. -/
theorem load_cases (files : Command.Files) (path : Raw) :
    (∃ d, Command.load files path = .ok d ∧ Holds files path d) ∨
      ∃ fault, Command.load files path = .error fault ∧
        ∀ others, FailsFirst engine files (.tree path :: others) fault := by
  cases htext : files.read path with
  | error cause =>
    have hload : Command.load files path = .error (.unreadableTree path cause) := by
      unfold Command.load
      rw [htext]
    exact .inr ⟨_, hload, failsFirst_tree hload (.inl ⟨cause, htext, rfl⟩)⟩
  | ok text =>
    cases hspec : ElementSpec.ofString? text with
    | none =>
      have hload : Command.load files path = .error (.invalidTree path (files.refusal text)) := by
        unfold Command.load
        rw [htext]
        dsimp only
        rw [hspec]
      exact .inr ⟨_, hload, failsFirst_tree hload (.inr ⟨text, htext, hspec, rfl⟩)⟩
    | some spec =>
      have hholds : Holds files path (.ofSpec spec) := ⟨text, spec, htext, hspec, rfl⟩
      exact .inl ⟨_, hholds.load_eq, hholds⟩

/-- How an action may end: with lines to write when all checks are passed, or with a fault of the
    first check that is not. -/
inductive Ends (engine : Engine) (files : Command.Files) (action : Action) :
    Except Command.Fault (List Command.Line) → Prop
  | writes {lines : List Command.Line} : (∀ c ∈ action.checks, c.Passed engine files) →
    action.Writes engine files (lines.map Command.Line.text) → Ends engine files action (.ok lines)
  | fails {fault : Command.Fault} : FailsFirst engine files action.checks fault →
    Ends engine files action (.error fault)

theorem ends_tokenize (selector : String) :
    Ends engine files (.tokenize selector) (Command.tokenize engine selector).outcome := by
  rw [Command.outcome_tokenize]
  cases hread : (engine.tokenize selector).outcome with
  | error cause => exact .fails (failsFirst_reading hread _)
  | ok tokens =>
    refine .writes (List.forall_mem_singleton.mpr ⟨tokens, hread⟩) ⟨tokens, hread, ?_⟩
    exact List.map_map

theorem ends_search {tree : Raw} {d : Document} (hd : Holds files tree d) (selector : String) :
    Ends engine files (.search tree selector) (Command.search engine d selector).outcome := by
  rw [Command.outcome_search]
  cases hread : (engine.tokenize selector).outcome with
  | error cause =>
    rw [Engine.outcome_search_of_error hread]
    exact .fails ((failsFirst_reading hread _).cons ⟨d, hd⟩)
  | ok tokens =>
    have hfound := Engine.outcome_search hread d (some Document.root)
    rw [hfound]
    refine .writes ?_ ⟨d, _, hd, hfound, List.map_map⟩
    exact List.forall_mem_cons.mpr ⟨⟨d, hd⟩, List.forall_mem_singleton.mpr ⟨tokens, hread⟩⟩

/-- The file of a tree holds one document. -/
theorem Holds.eq {path : Raw} {d d' : Document} (h : Holds files path d)
    (h' : Holds files path d') : d = d' :=
  Except.ok.inj (h.load_eq.symm.trans h'.load_eq)

theorem Holds.findById?_eq_none_iff {path : Raw} {d : Document} (h : Holds files path d)
    (key : String) : d.findById? Document.root key = none ↔ ∀ n, ¬d.hasId key n = true := by
  obtain ⟨_, spec, _, _, rfl⟩ := h
  exact Document.findById?_ofSpec_eq_none_iff

theorem ends_closest {tree : Raw} {d : Document} (hd : Holds files tree d)
    (start selector : String) :
    Ends engine files (.closest tree start selector)
      (Command.closest engine d start selector).outcome := by
  have htree : (Check.tree tree).Passed engine files := ⟨d, hd⟩
  cases hstart : d.findById? Document.root start with
  | none =>
    -- the id is looked up before the selector is read
    rw [Command.outcome_closest_of_none engine d selector hstart]
    rw [hd.findById?_eq_none_iff] at hstart
    refine .fails (FailsFirst.cons htree (.head ?_ ?_ _))
    · rintro ⟨d', hd', n, hn⟩
      obtain rfl := hd.eq hd'
      exact hstart n hn
    · exact rfl
  | some node =>
    have hcarrier : (Check.start tree start).Passed engine files :=
      ⟨d, hd, node, List.find?_some hstart⟩
    rw [Command.outcome_closest engine d selector hstart]
    cases hread : (engine.tokenize selector).outcome with
    | error cause =>
      rw [Engine.outcome_closest?_of_error hread]
      exact .fails (((failsFirst_reading hread _).cons hcarrier).cons htree)
    | ok tokens =>
      have hfound := Engine.outcome_closest? hread d node Document.root
      have hreading : (Check.reading selector (.notEvaluated selector)).Passed engine files :=
        ⟨tokens, hread⟩
      rw [hfound]
      refine .writes ?_ ⟨d, node, _, hd, hstart, hfound, ?_⟩
      · exact List.forall_mem_cons.mpr
          ⟨htree, List.forall_mem_cons.mpr ⟨hcarrier, List.forall_mem_singleton.mpr hreading⟩⟩
      · cases Query.closestTo? tokens d node Document.root with
        | none => rfl
        | some found => rfl

/-- What is done with a tree is done with the document that its file holds. -/
theorem ends_load (tree : Raw) (action : Action) {others : List Check}
    (hchecks : action.checks = .tree tree :: others)
    {next : Document → Journal Command.Fault (List Command.Line)}
    (hnext : ∀ d, Holds files tree d → Ends engine files action (next d).outcome) :
    Ends engine files action
      (Journal.ofExcept (Command.load files tree) >>= next).outcome := by
  rw [Journal.outcome_bind, Journal.outcome_ofExcept]
  -- the tree is checked first, so no other check matters where it fails
  rcases load_cases files tree with ⟨d, hload, hd⟩ | ⟨fault, hload, hfails⟩
  · rw [hload]
    exact hnext d hd
  · rw [hload]
    refine .fails ?_
    rw [hchecks]
    exact hfails others

/-- **Actions**: an action writes its lines if all checks are passed, and otherwise fails with a
    fault of the first check that is not. -/
theorem ends_perform (action : Action) :
    Ends engine files action (perform engine files action).outcome := by
  cases action with
  | tokenize selector =>
    unfold perform
    exact ends_tokenize selector
  | search tree selector =>
    unfold perform
    exact ends_load tree _ rfl fun d hd => ends_search hd selector
  | closest tree start selector =>
    unfold perform
    exact ends_load tree _ rfl fun d hd => ends_closest hd start selector

/-- With an engine of its own an action ends as with the standard engine. -/
theorem outcome_execute {mode : Selector.Mode} (he : (Engine.standard mode).outcome = .ok engine)
    (files : Command.Files) (action : Action) :
    (execute mode files action).outcome = (perform engine files action).outcome := by
  unfold execute
  rw [Journal.outcome_bind, Journal.outcome_mapFault, he]
  rfl

theorem ends_execute {mode : Selector.Mode} (he : (Engine.standard mode).outcome = .ok engine)
    (action : Action) : Ends engine files action (execute mode files action).outcome := by
  rw [outcome_execute he]
  exact ends_perform action

end Program

end TreeQuery
