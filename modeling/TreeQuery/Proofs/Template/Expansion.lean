import Mathlib.Data.List.Perm.Subperm
import Mathlib.Logic.Relation
import TreeQuery.Template.Expansion

/-! # Expansion — when definitions expand, and what is to blame if they do not

    Definitions are expanded by a walk over their references. The walk keeps the
    names that are under way and the definitions that are finished, and it is
    given a bound on how many names may be under way.

    * **Runs**: the expansion of a name as a derivation that knows no bound. The
      names under way are distinct and defined, so the bound that the walk is
      given is never what ends it.
    * **Blame**: the names under way lead to the name at hand, so a name that
      comes back lies on a cycle.
    * **Success**: whatever is finished stands on solid ground: its template can be
      read, and all that it refers to stands on solid ground, too.

    Both blame and success follow the derivation of a run.
-/

namespace TreeQuery

/-! ### Pieces -/

namespace Template

variable {look : Definitions → String → Journal Grammar.Fault (Definitions × String)}

/-- Expanding pieces fails only where a reference is looked up. -/
theorem exists_of_expandPieces_error {ps : List Piece} {finished : Definitions}
    {fault : Grammar.Fault} (h : (expandPieces look ps finished).outcome = .error fault) :
    ∃ finished' name, .reference name ∈ ps ∧
      (look finished' (String.ofList name)).outcome = .error fault := by
  induction ps generalizing finished with
  | nil => cases h
  | cons p ps ih =>
    have hlater : ∀ finished, (expandPieces look ps finished).outcome = .error fault →
        ∃ finished' name, .reference name ∈ p :: ps ∧
          (look finished' (String.ofList name)).outcome = .error fault := by
      intro finished h
      obtain ⟨finished', name, hname, hlook⟩ := ih h
      exact ⟨finished', name, List.mem_cons_of_mem p hname, hlook⟩
    cases p with
    | literal text =>
      rcases Journal.outcome_bind_eq_error_iff.mp h with h | ⟨_, _, h⟩
      · exact hlater finished h
      · cases h
    | reference name =>
      rcases Journal.outcome_bind_eq_error_iff.mp h with h | ⟨r, _, h⟩
      · exact ⟨finished, name, List.mem_cons_self, h⟩
      · rcases Journal.outcome_bind_eq_error_iff.mp h with h | ⟨_, _, h⟩
        · exact hlater r.1 h
        · cases h

/-- What every lookup keeps is kept while pieces are expanded, and what then holds of the name
    looked up holds of every reference. -/
theorem forall_of_expandPieces_ok {kept : Definitions → Prop} {holds : List Char → Prop}
    {ps : List Piece} {finished finished' : Definitions} {text : String}
    (hlook : ∀ name, .reference name ∈ ps → ∀ finished finished' text, kept finished →
      (look finished (String.ofList name)).outcome = .ok (finished', text) →
      kept finished' ∧ holds name)
    (hkept : kept finished) (h : (expandPieces look ps finished).outcome = .ok (finished', text)) :
    kept finished' ∧ ∀ name, .reference name ∈ ps → holds name := by
  induction ps generalizing finished finished' text with
  | nil =>
    obtain ⟨rfl, -⟩ := Prod.mk.inj (Except.ok.inj h)
    exact ⟨hkept, fun name hname => absurd hname List.not_mem_nil⟩
  | cons p ps ih =>
    have hlater := fun name hname => hlook name (List.mem_cons_of_mem p hname)
    cases p with
    | literal text =>
      obtain ⟨r, hrest, h⟩ := Journal.outcome_bind_eq_ok_iff.mp h
      obtain ⟨rfl, -⟩ := Prod.mk.inj (Except.ok.inj h)
      obtain ⟨hkept', hothers⟩ := ih hlater hkept hrest
      refine ⟨hkept', fun name hname => hothers name ?_⟩
      simpa using hname
    | reference inner =>
      obtain ⟨r, hfirst, h⟩ := Journal.outcome_bind_eq_ok_iff.mp h
      obtain ⟨r', hrest, h⟩ := Journal.outcome_bind_eq_ok_iff.mp h
      obtain ⟨rfl, -⟩ := Prod.mk.inj (Except.ok.inj h)
      obtain ⟨hkept', hinner⟩ := hlook inner List.mem_cons_self finished r.1 r.2 hkept hfirst
      obtain ⟨hkept'', hothers⟩ := ih hlater hkept' hrest
      refine ⟨hkept'', fun name hname => ?_⟩
      rcases List.mem_cons.mp hname with hname | hname
      · rw [Piece.reference.inj hname]
        exact hinner
      · exact hothers name hname

theorem outcome_readIn_eq_ok_iff {template : String} {ps : List Piece} :
    (readIn template).outcome = .ok ps ↔ read template.toList = .ok ps := by
  unfold readIn
  cases read template.toList <;> simp [Except.mapError]

theorem outcome_readIn_eq_error_iff {template : String} {fault : Grammar.Fault} :
    (readIn template).outcome = .error fault ↔
      ∃ f, read template.toList = .error f ∧ fault = .reference f := by
  unfold readIn
  cases read template.toList <;> simp [Except.mapError, eq_comm]

end Template

namespace Definitions

variable {d : Definitions} {n : Nat} {pending : List String} {finished finished' : Definitions}
  {name inner template text : String} {fault : Grammar.Fault}
  {look : Definitions → String → Journal Grammar.Fault (Definitions × String)}
  {j : Journal Grammar.Fault (Definitions × String)}

/-! ### References -/

theorem mem_entries_of_find? (h : d.find? name = some template) : (name, template) ∈ d.entries := by
  obtain ⟨entry, hentry, rfl⟩ := Option.map_eq_some_iff.mp h
  have hkey : entry.1 = name := by simpa using List.find?_some hentry
  rw [← hkey]
  exact List.mem_of_find?_eq_some hentry

/-- The template of one name refers to another. -/
def Refers (d : Definitions) (name inner : String) : Prop :=
  ∃ template pieces, d.find? name = some template ∧
    Template.read template.toList = .ok pieces ∧ .reference inner.toList ∈ pieces

theorem Refers.intro {pieces : List Template.Piece} {inner : List Char}
    (hname : d.find? name = some template) (hread : Template.read template.toList = .ok pieces)
    (hinner : .reference inner ∈ pieces) : d.Refers name (String.ofList inner) := by
  refine ⟨template, pieces, hname, hread, ?_⟩
  rw [String.toList_ofList]
  exact hinner

/-! ### Runs -/

/-- Expands the template of a name and finishes the name. What stands for a reference is asked of
    `look`. -/
def expandTemplate (look : Definitions → String → Journal Grammar.Fault (Definitions × String))
    (finished : Definitions) (name template : String) :
    Journal Grammar.Fault (Definitions × String) := do
  let ps ← Template.readIn template
  let (finished, text) ← Template.expandPieces look ps finished
  Journal.note (.definitionExpanded name text)
  pure (finished.insert name text, text)

/-- The expansion of a name and the journal that it comes to, without a bound on the names under
    way. A template is expanded once whatever it refers to can be. -/
inductive Expands (d : Definitions) : List String → Definitions → String →
    Journal Grammar.Fault (Definitions × String) → Prop where
  /-- The name is finished. -/
  | finished {pending : List String} {finished : Definitions} {name text : String} :
      finished.find? name = some text → Expands d pending finished name (pure (finished, text))
  /-- The name is under way. -/
  | cycle {pending : List String} {finished : Definitions} {name : String} :
      finished.find? name = none → name ∈ pending →
      Expands d pending finished name (.fail (.cycle name))
  /-- The template of the name is expanded while the name is under way. -/
  | template {pending : List String} {finished : Definitions} {name template : String}
      {look : Definitions → String → Journal Grammar.Fault (Definitions × String)} :
      finished.find? name = none → name ∉ pending → d.find? name = some template →
      (∀ inner, d.Refers name inner → d.find? inner = none →
        ∀ finished, look finished inner = .fail (.unknownName inner name)) →
      (∀ inner template', d.Refers name inner → d.find? inner = some template' →
        ∀ finished, Expands d (name :: pending) finished inner (look finished inner)) →
      Expands d pending finished name (expandTemplate look finished name template)

/-- A template fails to expand because it cannot be read or because of a reference. -/
theorem expandTemplate_eq_error (hname : d.find? name = some template)
    (h : (expandTemplate look finished name template).outcome = .error fault) :
    (∃ f, Template.read template.toList = .error f ∧ fault = .reference f) ∨
    ∃ finished' inner, d.Refers name inner ∧ (look finished' inner).outcome = .error fault := by
  rcases Journal.outcome_bind_eq_error_iff.mp h with h | ⟨pieces, hread, h⟩
  · exact .inl (Template.outcome_readIn_eq_error_iff.mp h)
  · right
    have hread := Template.outcome_readIn_eq_ok_iff.mp hread
    rcases Journal.outcome_bind_eq_error_iff.mp h with h | ⟨r, _, h⟩
    · obtain ⟨finished', inner, hinner, hlook⟩ := Template.exists_of_expandPieces_error h
      exact ⟨finished', String.ofList inner, .intro hname hread hinner, hlook⟩
    · -- what comes after the pieces does not fail
      rcases Journal.outcome_bind_eq_error_iff.mp h with h | ⟨_, _, h⟩ <;> cases h

/-- A template expands in three steps: it is read, its pieces are expanded, its name is finished. -/
theorem exists_of_expandTemplate_ok
    (h : (expandTemplate look finished name template).outcome = .ok (finished', text)) :
    ∃ pieces expanded, Template.read template.toList = .ok pieces ∧
      (Template.expandPieces look pieces finished).outcome = .ok (expanded, text) ∧
      finished' = expanded.insert name text := by
  obtain ⟨pieces, hread, h⟩ := Journal.outcome_bind_eq_ok_iff.mp h
  obtain ⟨r, hpieces, h⟩ := Journal.outcome_bind_eq_ok_iff.mp h
  obtain ⟨_, _, h⟩ := Journal.outcome_bind_eq_ok_iff.mp h
  obtain ⟨hinsert, rfl⟩ := Prod.mk.inj (Except.ok.inj h)
  exact ⟨pieces, r.1, Template.outcome_readIn_eq_ok_iff.mp hread, hpieces, hinsert.symm⟩

/-- Only what is defined is looked up. -/
theorem exists_find?_of_look_ok {r : Definitions × String}
    (hnone : ∀ inner, d.Refers name inner → d.find? inner = none →
      ∀ finished, look finished inner = .fail (.unknownName inner name))
    (hinner : d.Refers name inner) (hok : (look finished inner).outcome = .ok r) :
    ∃ template, d.find? inner = some template := by
  cases hfound : d.find? inner with
  | none =>
    rw [hnone inner hinner hfound] at hok
    cases hok
  | some template => exact ⟨template, rfl⟩

/-- A template expands because it can be read and every reference in it can be looked up. What the
    lookups keep is kept until the name of the template is finished. -/
theorem forall_of_expandTemplate_ok {kept : Definitions → Prop} {holds : String → Prop}
    (hname : d.find? name = some template)
    (hnone : ∀ inner, d.Refers name inner → d.find? inner = none →
      ∀ finished, look finished inner = .fail (.unknownName inner name))
    (hsome : ∀ inner template', d.Refers name inner → d.find? inner = some template' →
      ∀ finished finished' text, kept finished →
      (look finished inner).outcome = .ok (finished', text) → kept finished' ∧ holds inner)
    (hkept : kept finished)
    (h : (expandTemplate look finished name template).outcome = .ok (finished', text)) :
    ∃ pieces expanded, Template.read template.toList = .ok pieces ∧ kept expanded ∧
      (∀ inner, .reference inner ∈ pieces → holds (String.ofList inner)) ∧
      finished' = expanded.insert name text := by
  obtain ⟨pieces, expanded, hread, hpieces, rfl⟩ := exists_of_expandTemplate_ok h
  have hlook : ∀ inner, .reference inner ∈ pieces → ∀ finished finished' text, kept finished →
      (look finished (String.ofList inner)).outcome = .ok (finished', text) →
      kept finished' ∧ holds (String.ofList inner) := by
    intro inner hinner finished finished' text hkept hok
    have hrefers := Refers.intro hname hread hinner
    obtain ⟨template', hfound⟩ := exists_find?_of_look_ok hnone hrefers hok
    exact hsome _ template' hrefers hfound finished finished' text hkept hok
  obtain ⟨hexpanded, hreferences⟩ := Template.forall_of_expandPieces_ok hlook hkept hpieces
  exact ⟨pieces, expanded, hread, hexpanded, hreferences, rfl⟩

/-- The names that are under way with a bound on further names: they are distinct, they are defined,
    and together with the bound they exceed the number of definitions. -/
structure Underway (d : Definitions) (n : Nat) (pending : List String) : Prop where
  defined : pending ⊆ d.entries.map Prod.fst
  nodup : pending.Nodup
  room : d.size < n + pending.length

theorem underway_nil (h : d.size < n) : d.Underway n [] where
  defined := List.nil_subset _
  nodup := .nil
  room := h

theorem Underway.push (h : d.Underway (n + 1) pending) (hname : name ∉ pending)
    (hdefined : name ∈ d.entries.map Prod.fst) : d.Underway n (name :: pending) where
  defined := List.cons_subset.mpr ⟨hdefined, h.defined⟩
  nodup := List.nodup_cons.mpr ⟨hname, h.nodup⟩
  room := by
    have hroom := h.room
    rw [List.length_cons]
    omega

/-- There cannot be more names under way than there are definitions. -/
theorem Underway.pos (h : d.Underway n pending) : 0 < n := by
  have hlength := (List.subperm_of_subset h.nodup h.defined).length_le
  have hroom := h.room
  rw [List.length_map] at hlength
  unfold size at hroom
  omega

/-- **The walk ends by itself.** With room for the definitions that are left, the bounded walk is a
    run that knows no bound. -/
theorem expands_expandName (hname : d.find? name = some template) (h : d.Underway n pending) :
    d.Expands pending finished name (d.expandName n pending finished name template) := by
  induction n generalizing pending finished name template with
  | zero => exact absurd h.pos (Nat.lt_irrefl 0)
  | succ n ih =>
    rw [expandName]
    cases hfinished : finished.find? name with
    | some text => exact .finished hfinished
    | none =>
      by_cases hpending : name ∈ pending
      · simp only [hpending, if_true]
        exact .cycle hfinished hpending
      · simp only [hpending, if_false]
        have hdefined := List.mem_map_of_mem (f := Prod.fst) (mem_entries_of_find? hname)
        refine .template hfinished hpending hname ?_ ?_
        · intro inner _ hnone _
          rw [hnone]
        · -- one more name is under way, one less is left of the bound
          intro inner template' _ hsome _
          rw [hsome]
          exact ih hsome (h.push hpending hdefined)

/-! ### Blame -/

/-- The faults that the definitions are to blame for. -/
inductive Blames (d : Definitions) : Grammar.Fault → Prop where
  /-- The template of a name cannot be read. -/
  | reference {name template : String} {f : Template.Fault} : d.find? name = some template →
      Template.read template.toList = .error f → Blames d (.reference f)
  /-- A template refers to a name that nothing defines. -/
  | unknownName {name owner : String} : d.Refers owner name → d.find? name = none →
      Blames d (.unknownName name owner)
  /-- A name leads to itself over one or more references. -/
  | cycle {name : String} : Relation.TransGen d.Refers name name → Blames d (.cycle name)

/-- The definitions are to blame for the fault of a run, if the names under way lead to its name. -/
theorem Expands.blames (h : d.Expands pending finished name j)
    (hleads : ∀ p ∈ pending, Relation.TransGen d.Refers p name)
    (hfault : j.outcome = .error fault) : d.Blames fault := by
  induction h with
  | finished _ => cases hfault
  | cycle _ hpending =>
    obtain rfl := Except.error.inj hfault
    exact .cycle (hleads _ hpending)
  | @template pending finished name template look _ _ hname hnone _ ih =>
    rcases expandTemplate_eq_error hname hfault with ⟨f, hread, rfl⟩ | ⟨finished', inner, hinner, h⟩
    · exact .reference hname hread
    · cases hfound : d.find? inner with
      | none =>
        rw [hnone inner hinner hfound] at h
        obtain rfl := Except.error.inj h
        exact .unknownName hinner hfound
      | some template' =>
        -- the name itself is under way now, and leads to what it refers to
        refine ih inner template' hinner hfound finished' ?_ h
        intro p hp
        rcases List.mem_cons.mp hp with rfl | hp
        · exact .single hinner
        · exact (hleads p hp).tail hinner

/-! ### Success -/

/-- A name whose template can be read, as can everything that it leads to, and that leads to
    templates without references in the end. -/
inductive Grounded (d : Definitions) : String → Prop where
  | intro {name template : String} {pieces : List Template.Piece} :
      d.find? name = some template → Template.read template.toList = .ok pieces →
      (∀ inner, .reference inner ∈ pieces → Grounded d (String.ofList inner)) → Grounded d name

theorem Grounded.exists_read (h : d.Grounded name) (hname : d.find? name = some template) :
    ∃ pieces, Template.read template.toList = .ok pieces := by
  cases h with
  | intro hname' hread _ =>
    obtain rfl := Option.some.inj (hname'.symm.trans hname)
    exact ⟨_, hread⟩

theorem Grounded.exists_find? (h : d.Grounded name) : ∃ template, d.find? name = some template := by
  cases h with
  | intro hname _ _ => exact ⟨_, hname⟩

theorem Grounded.of_refers (h : d.Grounded name) (hinner : d.Refers name inner) :
    d.Grounded inner := by
  obtain ⟨template', pieces', hname', hread', hmem⟩ := hinner
  cases h with
  | intro hname hread hall =>
    obtain rfl := Option.some.inj (hname.symm.trans hname')
    obtain rfl := Except.ok.inj (hread.symm.trans hread')
    have hgrounded := hall _ hmem
    rwa [String.ofList_toList] at hgrounded

/-- Whoever stands on solid ground does not lead to itself. -/
theorem Grounded.not_transGen (h : d.Grounded name) : ¬Relation.TransGen d.Refers name name := by
  induction h with
  | @intro name template pieces hname hread _ ih =>
    intro hcycle
    -- the first reference on the cycle leads to itself, too
    obtain ⟨inner, hinner, hback⟩ := Relation.TransGen.head'_iff.mp hcycle
    have hcycle' : Relation.TransGen d.Refers inner inner := .tail' hback hinner
    obtain ⟨template', pieces', hname', hread', hmem⟩ := hinner
    obtain rfl := Option.some.inj (hname.symm.trans hname')
    obtain rfl := Except.ok.inj (hread.symm.trans hread')
    have hnot := ih inner.toList hmem
    rw [String.ofList_toList] at hnot
    exact hnot hcycle'

/-- What is finished stands on solid ground. -/
def AllGrounded (d finished : Definitions) : Prop :=
  ∀ name text, finished.find? name = some text → d.Grounded name

/-- A run that succeeds finishes nothing but names on solid ground. -/
theorem Expands.allGrounded (h : d.Expands pending finished name j)
    (hall : d.AllGrounded finished) (hok : j.outcome = .ok (finished', text)) :
    d.AllGrounded finished' ∧ d.Grounded name := by
  induction h generalizing finished' text with
  | finished hdone =>
    obtain ⟨rfl, -⟩ := Prod.mk.inj (Except.ok.inj hok)
    exact ⟨hall, hall _ _ hdone⟩
  | cycle => cases hok
  | @template pending finished name template look _ _ hname hnone _ ih =>
    have hkeeps : ∀ inner template', d.Refers name inner → d.find? inner = some template' →
        ∀ finished finished' text, d.AllGrounded finished →
        (look finished inner).outcome = .ok (finished', text) →
        d.AllGrounded finished' ∧ d.Grounded inner := by
      intro inner template' hinner hfound finished finished' text hall hok
      exact ih inner template' hinner hfound finished hall hok
    obtain ⟨pieces, expanded, hread, hexpanded, hreferences, rfl⟩ :=
      forall_of_expandTemplate_ok hname hnone hkeeps hall hok
    have hgrounded : d.Grounded name := .intro hname hread hreferences
    refine ⟨?_, hgrounded⟩
    intro other text' hother
    by_cases heq : other = name
    · rw [heq]
      exact hgrounded
    · rw [find?_insert_of_ne _ _ heq] at hother
      exact hexpanded other text' hother

/-- A run that succeeds keeps what is finished and finishes its name. -/
theorem Expands.exists_find? (h : d.Expands pending finished name j)
    (hok : j.outcome = .ok (finished', text)) {other : String}
    (hother : other = name ∨ ∃ text, finished.find? other = some text) :
    ∃ text, finished'.find? other = some text := by
  induction h generalizing finished' text with
  | finished hdone =>
    obtain ⟨rfl, -⟩ := Prod.mk.inj (Except.ok.inj hok)
    rcases hother with rfl | hother
    · exact ⟨_, hdone⟩
    · exact hother
  | cycle => cases hok
  | @template pending finished name template look _ _ hname hnone _ ih =>
    have hkeeps : ∀ inner template', d.Refers name inner → d.find? inner = some template' →
        ∀ finished finished' text, (other = name ∨ ∃ text, finished.find? other = some text) →
        (look finished inner).outcome = .ok (finished', text) →
        (other = name ∨ ∃ text, finished'.find? other = some text) ∧ True := by
      intro inner template' hinner hfound finished finished' text hother hok
      rcases hother with heq | hkept
      · exact ⟨.inl heq, trivial⟩
      · exact ⟨.inr (ih inner template' hinner hfound finished hok (.inr hkept)), trivial⟩
    obtain ⟨_, expanded, _, hexpanded, _, rfl⟩ :=
      forall_of_expandTemplate_ok hname hnone hkeeps hother hok
    by_cases heq : other = name
    · rw [heq]
      exact ⟨text, find?_insert_self expanded name text⟩
    · rw [find?_insert_of_ne _ _ heq]
      exact hexpanded.resolve_left heq

/-! ### All definitions -/

/-- The definitions of the names in `done` are finished, and on solid ground. -/
structure Settled (d : Definitions) (done : List (String × String)) (finished : Definitions) :
    Prop where
  grounded : d.AllGrounded finished
  covers : ∀ entry ∈ done, ∃ text, finished.find? entry.1 = some text

theorem settled_empty (d : Definitions) : d.Settled [] empty where
  grounded name text h := by
    rw [find?_empty] at h
    cases h
  covers _ h := absurd h List.not_mem_nil

/-- The template of an entry is what its name stands for, unless an earlier entry has the name. -/
theorem find?_of_entries_eq {done rest : List (String × String)}
    (h : d.entries = done ++ (name, template) :: rest) :
    (∃ entry ∈ done, entry.1 = name) ∨ d.find? name = some template := by
  unfold find?
  rw [h, List.find?_append]
  cases hdone : done.find? fun entry => entry.1 == name with
  | some entry =>
    have hkey : entry.1 = name := by simpa using List.find?_some hdone
    exact .inl ⟨entry, List.mem_of_find?_eq_some hdone, hkey⟩
  | none => simp

/-- A visit is a run, if its name has been visited before or has the template of the visit. -/
theorem expands_visit {done : List (String × String)}
    (hvisit : (∃ entry ∈ done, entry.1 = name) ∨ d.find? name = some template)
    (hdone : ∀ entry ∈ done, ∃ text, finished.find? entry.1 = some text) :
    d.Expands [] finished name (d.expandName (d.size + 1) [] finished name template) := by
  rcases hvisit with ⟨entry, hentry, rfl⟩ | hname
  · obtain ⟨text, htext⟩ := hdone entry hentry
    rw [expandName, htext]
    exact .finished htext
  · exact expands_expandName hname (underway_nil (Nat.lt_succ_self d.size))

/-- The expansion of one entry is a run. -/
theorem Settled.expands {done rest : List (String × String)} (h : d.Settled done finished)
    (hentries : d.entries = done ++ (name, template) :: rest) :
    d.Expands [] finished name (d.expandName (d.size + 1) [] finished name template) :=
  expands_visit (find?_of_entries_eq hentries) h.covers

/-- One more entry is settled when its expansion succeeds. -/
theorem Settled.push {done rest : List (String × String)} (h : d.Settled done finished)
    (hentries : d.entries = done ++ (name, template) :: rest)
    (hok : (d.expandName (d.size + 1) [] finished name template).outcome =
      .ok (finished', text)) :
    d.Settled (done ++ [(name, template)]) finished' where
  grounded := ((h.expands hentries).allGrounded h.grounded hok).1
  covers entry hentry := by
    refine (h.expands hentries).exists_find? hok ?_
    rcases List.mem_append.mp hentry with hentry | hentry
    · exact .inr (h.covers entry hentry)
    · rw [List.mem_singleton.mp hentry]
      exact .inl rfl

/-- With some entries settled, the rest is settled, too, or the definitions are to blame. -/
theorem settled_or_blames_of_expandEntries {done rest : List (String × String)}
    (hentries : d.entries = done ++ rest) (h : d.Settled done finished) :
    (∃ finished', (d.expandEntries rest finished).outcome = .ok finished' ∧
      d.Settled d.entries finished') ∨
    ∃ fault, (d.expandEntries rest finished).outcome = .error fault ∧ d.Blames fault := by
  induction rest generalizing done finished with
  | nil =>
    rw [List.append_nil] at hentries
    rw [hentries]
    exact .inl ⟨finished, rfl, h⟩
  | cons entry rest ih =>
    obtain ⟨name, template⟩ := entry
    cases houtcome : (d.expandName (d.size + 1) [] finished name template).outcome with
    | error fault =>
      have hblames : d.Blames fault :=
        (h.expands hentries).blames (fun _ hp => absurd hp List.not_mem_nil) houtcome
      refine .inr ⟨fault, ?_, hblames⟩
      exact Journal.outcome_bind_eq_error_iff.mpr (.inl houtcome)
    | ok r =>
      have hentries' : d.entries = (done ++ [(name, template)]) ++ rest := by
        rw [hentries, List.append_assoc]
        rfl
      have hstep : (d.expandEntries ((name, template) :: rest) finished).outcome =
          (d.expandEntries rest r.1).outcome := by
        rw [expandEntries, Journal.bind_of_ok houtcome]
      rw [hstep]
      exact ih hentries' (h.push hentries houtcome)

theorem Settled.grounded_of_find? (h : d.Settled d.entries finished)
    (hname : d.find? name = some template) : d.Grounded name := by
  obtain ⟨text, htext⟩ := h.covers (name, template) (mem_entries_of_find? hname)
  exact h.grounded name text htext

theorem Settled.grounded_of_refers (h : d.Settled d.entries finished)
    (hinner : d.Refers name inner) : d.Grounded name := by
  obtain ⟨template, _, hname, _⟩ := hinner
  exact h.grounded_of_find? hname

/-- **When definitions expand.** The walk over the references of a name ends by itself. All
    definitions expand exactly if every template can be read, every reference is to a name that is
    defined, and no name leads to itself; if they do not, the fault tells truly what is wrong. -/
theorem expand_ok_iff_and_blames (d : Definitions) :
    (∀ name template, d.find? name = some template → ∀ finished,
      d.Expands [] finished name (d.expandName (d.size + 1) [] finished name template)) ∧
    ((∃ expanded, d.expand.outcome = .ok expanded) ↔
      (∀ name template, d.find? name = some template →
        ∃ pieces, Template.read template.toList = .ok pieces) ∧
      (∀ name inner, d.Refers name inner → ∃ template, d.find? inner = some template) ∧
      ∀ name, ¬Relation.TransGen d.Refers name name) ∧
    ∀ fault, d.expand.outcome = .error fault → d.Blames fault := by
  have hwalk := settled_or_blames_of_expandEntries (List.nil_append d.entries).symm
    (settled_empty d)
  refine ⟨?_, ⟨?_, ?_⟩, ?_⟩
  · intro name template hname finished
    exact expands_expandName hname (underway_nil (Nat.lt_succ_self d.size))
  · intro ⟨expanded, hok⟩
    rcases hwalk with ⟨finished, _, hsettled⟩ | ⟨fault, herror, _⟩
    · refine ⟨?_, ?_, ?_⟩
      · intro name template hname
        exact (hsettled.grounded_of_find? hname).exists_read hname
      · intro name inner hinner
        exact ((hsettled.grounded_of_refers hinner).of_refers hinner).exists_find?
      · intro name hcycle
        -- a cycle starts with a reference
        obtain ⟨inner, hinner, _⟩ := Relation.TransGen.head'_iff.mp hcycle
        exact (hsettled.grounded_of_refers hinner).not_transGen hcycle
    · cases hok.symm.trans herror
  · intro ⟨hread, hdefined, hacyclic⟩
    rcases hwalk with ⟨finished, hok, _⟩ | ⟨fault, _, hblames⟩
    · exact ⟨finished, hok⟩
    · -- each fault is excluded by one of the conditions
      cases hblames with
      | reference hname hfault =>
        obtain ⟨pieces, hpieces⟩ := hread _ _ hname
        cases hpieces.symm.trans hfault
      | unknownName hinner hnone =>
        obtain ⟨template, hsome⟩ := hdefined _ _ hinner
        cases hsome.symm.trans hnone
      | cycle hcycle => exact absurd hcycle (hacyclic _)
  · intro fault herror
    rcases hwalk with ⟨finished, hok, _⟩ | ⟨fault', herror', hblames⟩
    · cases hok.symm.trans herror
    · obtain rfl := Except.error.inj (herror'.symm.trans herror)
      exact hblames

end Definitions

end TreeQuery
