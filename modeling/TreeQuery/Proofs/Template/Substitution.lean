import TreeQuery.Proofs.Template.Ordered

/-! # Substitution — what finished definitions say

    A name denotes its template with the text of every name it refers to put in place
    of the reference. The walk that expands definitions keeps a table of finished
    names and fills it in the middle of other expansions; whatever is in the table is
    what its name denotes.

    * **Filling**: the text of some pieces, given the texts of names.
    * **Meaning**: what a name denotes, as plain substitution without a table. No name
      denotes two texts.
    * **Tables**: a table of finished names is sound. There is one complete table at
      most.
    * **Runs**: a run that succeeds keeps its table sound and takes nothing away.
    * **Visits**: names may be visited in any order, and with any sound table.
    * **The equations**: complete tables are the solutions of a system of equations,
      one for each name.

    Main statement: `expand_eq_substitution`
-/

namespace TreeQuery

/-! ### Filling -/

namespace Template

/-- The text of some pieces, given the texts of names: a literal stands for itself, and a reference
    for the text of its name in a group. There is none if a name has no text. -/
def fill? (texts : String → Option String) : List Piece → Option String
  | [] => some ""
  | .literal cs :: ps => (fill? texts ps).map (String.ofList cs ++ ·)
  | .reference name :: ps =>
    (texts (String.ofList name)).bind fun text => (fill? texts ps).map (grouped text ++ ·)

variable {texts texts' : String → Option String} {ps : List Piece} {text : String}

theorem fill?_literal (texts : String → Option String) (cs : List Char) (ps : List Piece) :
    fill? texts (.literal cs :: ps) = (fill? texts ps).map (String.ofList cs ++ ·) := rfl

theorem fill?_reference (texts : String → Option String) (name : List Char) (ps : List Piece) :
    fill? texts (.reference name :: ps) =
      (texts (String.ofList name)).bind fun text => (fill? texts ps).map (grouped text ++ ·) := rfl

/-- Only the texts of the names that are referred to matter. -/
theorem fill?_congr (h : ∀ name, .reference name ∈ ps →
    texts (String.ofList name) = texts' (String.ofList name)) :
    fill? texts ps = fill? texts' ps := by
  induction ps with
  | nil => rfl
  | cons p ps ih =>
    have hrest := ih fun name hname => h name (List.mem_cons_of_mem p hname)
    cases p with
    | literal cs => rw [fill?_literal, fill?_literal, hrest]
    | reference name =>
      rw [fill?_reference, fill?_reference, hrest, h name List.mem_cons_self]

/-- Where there is a text, every name that is referred to has one, and the other way round. -/
theorem exists_fill?_iff : (∃ text, fill? texts ps = some text) ↔
    ∀ name, .reference name ∈ ps → ∃ text, texts (String.ofList name) = some text := by
  simp only [← Option.isSome_iff_exists]
  induction ps with
  | nil => simp [fill?]
  | cons p ps ih =>
    cases p with
    | literal cs => simp [fill?_literal, ih]
    | reference name =>
      simp only [fill?_reference, Option.isSome_bind, List.mem_cons, Piece.reference.injEq]
      cases hname : texts (String.ofList name) with
      | none => simp [hname]
      | some text => simp [ih, hname]

end Template

namespace Definitions

variable {d finished finished' expanded : Definitions} {pending : List String}
  {name template text : String} {texts : String → Option String}
  {look : Definitions → String → Journal Grammar.Fault (Definitions × String)}
  {j : Journal Grammar.Fault (Definitions × String)}

/-! ### Meaning -/

/-- What a name denotes by plain substitution: its template, filled with texts that the names it
    refers to denote. -/
inductive Denotes (d : Definitions) : String → String → Prop where
  | intro {name template text : String} {pieces : List Template.Piece}
      {texts : String → Option String} :
      d.find? name = some template → Template.read template.toList = .ok pieces →
      Template.fill? texts pieces = some text →
      (∀ inner text, .reference inner ∈ pieces → texts (String.ofList inner) = some text →
        Denotes d (String.ofList inner) text) → Denotes d name text

theorem Denotes.exists_find? (h : d.Denotes name text) :
    ∃ template, d.find? name = some template := by
  cases h with
  | intro hname _ _ _ => exact ⟨_, hname⟩

/-- A name that denotes a text stands on solid ground. -/
theorem Denotes.grounded (h : d.Denotes name text) : d.Grounded name := by
  induction h with
  | @intro name template text pieces texts hname hread hfill _ ih =>
    refine .intro hname hread fun inner hinner => ?_
    obtain ⟨innerText, htext⟩ := Template.exists_fill?_iff.mp ⟨text, hfill⟩ inner hinner
    exact ih inner innerText hinner htext

/-- A name denotes one text only. -/
theorem Denotes.unique {text' : String} (h : d.Denotes name text) (h' : d.Denotes name text') :
    text = text' := by
  induction h generalizing text' with
  | @intro name template text pieces texts hname hread hfill _ ih =>
    obtain @⟨_, _, _, _, texts', hname', hread', hfill', hinner'⟩ := h'
    obtain rfl := Option.some.inj (hname.symm.trans hname')
    obtain rfl := Except.ok.inj (hread.symm.trans hread')
    -- both are the same pieces, filled with the same texts
    have hsame : Template.fill? texts pieces = Template.fill? texts' pieces := by
      apply Template.fill?_congr
      intro inner hinner
      obtain ⟨a, ha⟩ := Template.exists_fill?_iff.mp ⟨text, hfill⟩ inner hinner
      obtain ⟨b, hb⟩ := Template.exists_fill?_iff.mp ⟨text', hfill'⟩ inner hinner
      rw [ha, hb, ih inner a hinner ha (hinner' inner b hinner hb)]
    rw [hfill, hfill'] at hsame
    exact Option.some.inj hsame

/-! ### Tables -/

/-- A table of finished names that grows by insertions, with the texts that its names denote. -/
structure Sound (d finished : Definitions) : Prop where
  ordered : finished.Ordered
  denotes : ∀ name text, finished.find? name = some text → d.Denotes name text

theorem sound_empty (d : Definitions) : d.Sound empty where
  ordered := ordered_empty
  denotes name text h := by
    rw [find?_empty] at h
    cases h

theorem Sound.insert (h : d.Sound finished) (hname : d.Denotes name text) :
    d.Sound (finished.insert name text) where
  ordered := h.ordered.insert name text
  denotes other text' hother := by
    by_cases heq : other = name
    · rw [heq, find?_insert_self] at hother
      rw [heq, ← Option.some.inj hother]
      exact hname
    · rw [find?_insert_of_ne _ _ heq] at hother
      exact h.denotes other text' hother

/-- A table with everything that another one has. -/
def GrowsTo (finished finished' : Definitions) : Prop :=
  ∀ name text, finished.find? name = some text → finished'.find? name = some text

theorem GrowsTo.refl (finished : Definitions) : finished.GrowsTo finished := fun _ _ h => h

theorem GrowsTo.trans {finished'' : Definitions} (h : finished.GrowsTo finished')
    (h' : finished'.GrowsTo finished'') : finished.GrowsTo finished'' :=
  fun name text hname => h' name text (h name text hname)

/-- A sound table only grows by what a name denotes, even if the name has been finished before. -/
theorem Sound.growsTo_insert (h : d.Sound finished) (hname : d.Denotes name text) :
    finished.GrowsTo (finished.insert name text) := by
  intro other text' hother
  by_cases heq : other = name
  · subst heq
    rw [find?_insert_self, hname.unique (h.denotes other text' hother)]
  · rw [find?_insert_of_ne _ _ heq]
    exact hother

/-- A sound table that has every name that is defined. -/
structure Complete (d finished : Definitions) : Prop extends d.Sound finished where
  covers : ∀ name template, d.find? name = some template →
    ∃ text, finished.find? name = some text

theorem Complete.find?_eq_some_iff (h : d.Complete finished) :
    finished.find? name = some text ↔ d.Denotes name text := by
  refine ⟨h.denotes name text, fun hdenotes => ?_⟩
  obtain ⟨template, hname⟩ := hdenotes.exists_find?
  obtain ⟨text', htext⟩ := h.covers name template hname
  rw [htext, hdenotes.unique (h.denotes name text' htext)]

/-- A name without a text is not defined. -/
theorem Complete.find?_eq_none (h : d.Complete finished) (hname : finished.find? name = none) :
    d.find? name = none := by
  cases hfound : d.find? name with
  | none => rfl
  | some template =>
    obtain ⟨text, htext⟩ := h.covers name template hfound
    cases hname.symm.trans htext

/-- There is one complete table at most. -/
theorem Complete.unique (h : d.Complete finished) (h' : d.Complete finished') :
    finished = finished' := by
  apply h.ordered.ext h'.ordered
  intro name
  ext text
  rw [h.find?_eq_some_iff, h'.find?_eq_some_iff]

/-! ### Runs -/

/-- What each lookup does to a sound table, the pieces do, too: it grows, stays sound, and holds the
    text that has been put in. -/
theorem fill?_of_expandPieces_ok {ps : List Template.Piece}
    (hlook : ∀ name, .reference name ∈ ps → ∀ finished finished' text, d.Sound finished →
      (look finished (String.ofList name)).outcome = .ok (finished', text) →
      d.Sound finished' ∧ finished.GrowsTo finished' ∧
        finished'.find? (String.ofList name) = some text)
    (hsound : d.Sound finished)
    (h : (Template.expandPieces look ps finished).outcome = .ok (finished', text)) :
    d.Sound finished' ∧ finished.GrowsTo finished' ∧
      Template.fill? finished'.find? ps = some text := by
  induction ps generalizing finished finished' text with
  | nil =>
    obtain ⟨rfl, rfl⟩ := Prod.mk.inj (Except.ok.inj h)
    exact ⟨hsound, .refl finished, rfl⟩
  | cons p ps ih =>
    have hlater := fun name hname => hlook name (List.mem_cons_of_mem p hname)
    cases p with
    | literal cs =>
      obtain ⟨r, hrest, h⟩ := Journal.outcome_bind_eq_ok_iff.mp h
      obtain ⟨rfl, rfl⟩ := Prod.mk.inj (Except.ok.inj h)
      obtain ⟨hsound', hgrows, hfill⟩ := ih hlater hsound hrest
      refine ⟨hsound', hgrows, ?_⟩
      rw [Template.fill?_literal, hfill]
      rfl
    | reference inner =>
      obtain ⟨r, hfirst, h⟩ := Journal.outcome_bind_eq_ok_iff.mp h
      obtain ⟨r', hrest, h⟩ := Journal.outcome_bind_eq_ok_iff.mp h
      obtain ⟨rfl, rfl⟩ := Prod.mk.inj (Except.ok.inj h)
      obtain ⟨hsound', hgrows, hinner⟩ := hlook inner List.mem_cons_self _ _ _ hsound hfirst
      obtain ⟨hsound'', hgrows', hfill⟩ := ih hlater hsound' hrest
      refine ⟨hsound'', hgrows.trans hgrows', ?_⟩
      -- the text that was looked up is still in the table at the end
      rw [Template.fill?_reference, hgrows' _ _ hinner, hfill]
      rfl

/-- A run that succeeds keeps its table sound, and has the text of its name in it. -/
theorem Expands.sound (h : d.Expands pending finished name j) (hsound : d.Sound finished)
    (hok : j.outcome = .ok (finished', text)) :
    d.Sound finished' ∧ finished.GrowsTo finished' ∧ finished'.find? name = some text := by
  induction h generalizing finished' text with
  | finished hdone =>
    obtain ⟨rfl, rfl⟩ := Prod.mk.inj (Except.ok.inj hok)
    exact ⟨hsound, .refl _, hdone⟩
  | cycle => cases hok
  | @template pending finished name template look _ _ hname hnone _ ih =>
    obtain ⟨pieces, expanded, hread, hpieces, rfl⟩ := exists_of_expandTemplate_ok hok
    have hlook : ∀ inner, .reference inner ∈ pieces → ∀ finished finished' text,
        d.Sound finished → (look finished (String.ofList inner)).outcome = .ok (finished', text) →
        d.Sound finished' ∧ finished.GrowsTo finished' ∧
          finished'.find? (String.ofList inner) = some text := by
      intro inner hinner finished finished' text hsound hok
      have hrefers := Refers.intro hname hread hinner
      obtain ⟨template', hfound⟩ := exists_find?_of_look_ok hnone hrefers hok
      exact ih _ template' hrefers hfound finished hsound hok
    obtain ⟨hexpanded, hgrows, hfill⟩ := fill?_of_expandPieces_ok hlook hsound hpieces
    have hdenotes : d.Denotes name text := .intro hname hread hfill fun inner text _ hinner =>
      hexpanded.denotes (String.ofList inner) text hinner
    exact ⟨hexpanded.insert hdenotes, hgrows.trans (hexpanded.growsTo_insert hdenotes),
      find?_insert_self ..⟩

/-- A name on solid ground expands, unless it leads back to one that is under way. -/
theorem Expands.exists_ok (h : d.Expands pending finished name j) (hgrounded : d.Grounded name)
    (haway : ∀ p ∈ pending, ¬Relation.ReflTransGen d.Refers name p) :
    ∃ r, j.outcome = .ok r := by
  induction h with
  | finished => exact ⟨_, rfl⟩
  | cycle _ hpending => exact absurd .refl (haway _ hpending)
  | @template pending finished name template look _ _ hname hnone _ ih =>
    cases houtcome : (expandTemplate look finished name template).outcome with
    | ok r => exact ⟨r, rfl⟩
    | error fault =>
      rcases expandTemplate_eq_error hname houtcome with ⟨f, hread, -⟩ | ⟨_, inner, hinner, hfault⟩
      · obtain ⟨pieces, hpieces⟩ := hgrounded.exists_read hname
        cases hpieces.symm.trans hread
      · have hground := hgrounded.of_refers hinner
        obtain ⟨template', hfound⟩ := hground.exists_find?
        obtain ⟨r, hok⟩ := ih inner template' hinner hfound _ hground (by
          intro p hp hleads
          rcases List.mem_cons.mp hp with rfl | hp
          · -- the name itself is under way now, and does not lead back to itself
            exact hgrounded.not_transGen (.head' hinner hleads)
          · exact haway p hp (.head hinner hleads))
        cases hok.symm.trans hfault

/-! ### Visits -/

/-- Visits to make, one after another, once others have been made: each has the template of its
    name, unless the name has been visited before. -/
def Visits (d : Definitions) : List (String × String) → List (String × String) → Prop
  | _, [] => True
  | done, (name, template) :: visits =>
    ((∃ entry ∈ done, entry.1 = name) ∨ d.find? name = some template) ∧
      d.Visits (done ++ [(name, template)]) visits

theorem visits_of_forall {done visits : List (String × String)}
    (h : ∀ name template, (name, template) ∈ visits → d.find? name = some template) :
    d.Visits done visits := by
  induction visits generalizing done with
  | nil => trivial
  | cons entry visits ih =>
    exact ⟨.inr (h entry.1 entry.2 List.mem_cons_self),
      ih fun name template hmem => h name template (List.mem_cons_of_mem _ hmem)⟩

theorem visits_of_entries_eq {done rest : List (String × String)} (h : d.entries = done ++ rest) :
    d.Visits done rest := by
  induction rest generalizing done with
  | nil => trivial
  | cons entry rest ih => exact ⟨find?_of_entries_eq h, ih (by simp [h])⟩

theorem Visits.left {done front back : List (String × String)}
    (h : d.Visits done (front ++ back)) : d.Visits done front := by
  induction front generalizing done with
  | nil => trivial
  | cons entry front ih => exact ⟨h.1, ih h.2⟩

/-- Visits to names on solid ground are made in any order, and with any sound table. Each finishes
    its name, if it has not been finished before. -/
theorem Sound.exists_expandEntries {done visits : List (String × String)}
    (hsound : d.Sound finished)
    (hdone : ∀ entry ∈ done, ∃ text, finished.find? entry.1 = some text)
    (hvisits : d.Visits done visits) (hgrounded : ∀ entry ∈ visits, d.Grounded entry.1) :
    ∃ finished', (d.expandEntries visits finished).outcome = .ok finished' ∧ d.Sound finished' ∧
      finished.GrowsTo finished' ∧
      ∀ entry ∈ visits, ∃ text, finished'.find? entry.1 = some text := by
  -- by induction on the visits: one that has been made is done
  induction visits generalizing done finished with
  | nil => exact ⟨finished, rfl, hsound, .refl finished, fun _ h => absurd h List.not_mem_nil⟩
  | cons entry visits ih =>
    obtain ⟨name, template⟩ := entry
    obtain ⟨hfirst, hlater⟩ := hvisits
    have hrun := expands_visit hfirst hdone
    obtain ⟨⟨finished₁, text⟩, hok⟩ := hrun.exists_ok (hgrounded _ List.mem_cons_self)
      fun _ hp => absurd hp List.not_mem_nil
    obtain ⟨hsound₁, hgrows₁, htext⟩ := hrun.sound hsound hok
    have hdone₁ : ∀ entry ∈ done ++ [(name, template)], ∃ text,
        finished₁.find? entry.1 = some text := by
      intro entry hentry
      rcases List.mem_append.mp hentry with hentry | hentry
      · obtain ⟨text', htext'⟩ := hdone entry hentry
        exact ⟨text', hgrows₁ _ _ htext'⟩
      · rw [List.mem_singleton.mp hentry]
        exact ⟨text, htext⟩
    obtain ⟨finished₂, hok₂, hsound₂, hgrows₂, hcovers⟩ := ih hsound₁ hdone₁ hlater
      fun entry hentry => hgrounded entry (List.mem_cons_of_mem _ hentry)
    refine ⟨finished₂, ?_, hsound₂, hgrows₁.trans hgrows₂, ?_⟩
    · rw [expandEntries, Journal.bind_of_ok hok]
      exact hok₂
    · intro entry hentry
      rcases List.mem_cons.mp hentry with rfl | hentry
      · exact ⟨text, hgrows₂ _ _ htext⟩
      · exact hcovers entry hentry

/-- If every name that is defined stands on solid ground, visits to all of them complete any sound
    table. -/
theorem Sound.exists_complete {visits : List (String × String)} (hsound : d.Sound finished)
    (hvisits : d.Visits [] visits)
    (hgrounded : ∀ entry ∈ visits, d.Grounded entry.1)
    (hall : ∀ name template, d.find? name = some template → (name, template) ∈ visits) :
    ∃ finished', (d.expandEntries visits finished).outcome = .ok finished' ∧
      d.Complete finished' := by
  obtain ⟨finished', hok, hsound', _, hcovers⟩ := hsound.exists_expandEntries
    (fun _ h => absurd h List.not_mem_nil) hvisits hgrounded
  exact ⟨finished', hok, hsound', fun name template hname => hcovers _ (hall name template hname)⟩

theorem exists_find?_of_mem_entries {entry : String × String} (h : entry ∈ d.entries) :
    ∃ template, d.find? entry.1 = some template := by
  cases hfind : d.find? entry.1 with
  | some template => exact ⟨template, rfl⟩
  | none =>
    have hnone := List.find?_eq_none.mp (Option.map_eq_none_iff.mp hfind) entry h
    simp at hnone

/-- If every name that is defined stands on solid ground, the definitions expand. -/
theorem exists_expand_of_grounded
    (hgrounded : ∀ name template, d.find? name = some template → d.Grounded name) :
    ∃ expanded, d.expand.outcome = .ok expanded ∧ d.Complete expanded := by
  refine (sound_empty d).exists_complete (visits_of_entries_eq (List.nil_append _).symm) ?_
    fun _ _ => mem_entries_of_find?
  intro entry hentry
  obtain ⟨template, hname⟩ := exists_find?_of_mem_entries hentry
  exact hgrounded entry.1 template hname

/-- Definitions that expand stand on solid ground. -/
theorem grounded_of_expand (h : d.expand.outcome = .ok expanded)
    (hname : d.find? name = some template) : d.Grounded name := by
  rcases settled_or_blames_of_expandEntries (List.nil_append d.entries).symm (settled_empty d) with
    ⟨_, _, hsettled⟩ | ⟨fault, herror, _⟩
  · exact hsettled.grounded_of_find? hname
  · cases h.symm.trans herror

theorem complete_of_expand (h : d.expand.outcome = .ok expanded) :
    d.Complete expanded := by
  obtain ⟨expanded', hok, hcomplete⟩ := exists_expand_of_grounded fun _ _ => grounded_of_expand h
  obtain rfl := Except.ok.inj (hok.symm.trans h)
  exact hcomplete

theorem Complete.outcome_expand (h : d.Complete expanded) : d.expand.outcome = .ok expanded := by
  have hgrounded : ∀ name template, d.find? name = some template → d.Grounded name := by
    intro name template hname
    obtain ⟨text, htext⟩ := h.covers name template hname
    exact (h.denotes name text htext).grounded
  obtain ⟨expanded', hok, hcomplete⟩ := exists_expand_of_grounded hgrounded
  rw [hok, hcomplete.unique h]

/-! ### The equations -/

/-- Texts for the names that are defined, and for no others, that solve an equation for each name:
    its text is its template, filled with the texts of the names that it refers to. -/
structure IsSolution (d : Definitions) (texts : String → Option String) : Prop where
  names : ∀ name, (∃ text, texts name = some text) ↔ ∃ template, d.find? name = some template
  equation : ∀ name template, d.find? name = some template →
    ∃ pieces, Template.read template.toList = .ok pieces ∧
      texts name = Template.fill? texts pieces

/-- A complete table solves the equations. -/
theorem Complete.isSolution (h : d.Complete finished) : d.IsSolution finished.find? where
  names name := by
    constructor
    · intro ⟨text, htext⟩
      exact (h.denotes name text htext).exists_find?
    · intro ⟨template, hname⟩
      exact h.covers name template hname
  equation name template hname := by
    obtain ⟨text, htext⟩ := h.covers name template hname
    obtain @⟨_, _, _, pieces, texts, hname', hread, hfill, hinner⟩ := h.denotes name text htext
    obtain rfl := Option.some.inj (hname.symm.trans hname')
    refine ⟨pieces, hread, ?_⟩
    -- what the name has been filled with is what the table says
    rw [htext, ← hfill]
    apply Template.fill?_congr
    intro inner hmem
    obtain ⟨innerText, hinnerText⟩ := Template.exists_fill?_iff.mp ⟨text, hfill⟩ inner hmem
    rw [hinnerText, h.find?_eq_some_iff.mpr (hinner inner innerText hmem hinnerText)]

/-- On solid ground, the text of a solution is what its name denotes. -/
theorem IsSolution.denotes (h : d.IsSolution texts)
    (hgrounded : d.Grounded name) (hname : texts name = some text) : d.Denotes name text := by
  induction hgrounded generalizing text with
  | @intro name template pieces hfound hread _ ih =>
    obtain ⟨_, hread', hequation⟩ := h.equation name template hfound
    obtain rfl := Except.ok.inj (hread.symm.trans hread')
    exact .intro hfound hread (hequation.symm.trans hname) fun inner innerText hinner htext =>
      ih inner hinner htext

/-- **Substitution.** Definitions that expand give the names that are defined texts that solve the
    equations: every name has its template, with the text of each name that it refers to put in a
    group in place of the reference. No other texts solve them, so the result is the same in
    whichever order the names are visited and whatever part of it is in the table at the start. -/
theorem expand_eq_substitution (h : d.expand.outcome = .ok expanded) :
    d.IsSolution expanded.find? ∧
    (∀ texts, d.IsSolution texts → texts = expanded.find?) ∧
    ∀ visits finished,
      (∀ name template, (name, template) ∈ visits ↔ d.find? name = some template) →
      finished.Ordered → finished.GrowsTo expanded →
      (d.expandEntries visits finished).outcome = .ok expanded := by
  have hcomplete := complete_of_expand h
  refine ⟨hcomplete.isSolution, ?_, ?_⟩
  · intro texts hsolution
    funext name
    cases htexts : texts name with
    | none =>
      -- a name without a text is not defined
      cases hfound : expanded.find? name with
      | none => rfl
      | some text =>
        have hdefined := (hcomplete.denotes name text hfound).exists_find?
        obtain ⟨text', htext'⟩ := (hsolution.names name).mpr hdefined
        cases htexts.symm.trans htext'
    | some text =>
      obtain ⟨template, hname⟩ := (hsolution.names name).mp ⟨text, htexts⟩
      have hdenotes := hsolution.denotes (grounded_of_expand h hname) htexts
      rw [hcomplete.find?_eq_some_iff.mpr hdenotes]
  · intro visits finished hvisits hordered hpart
    -- a part of the result need not be closed under references, but each of its texts is denoted
    have hsound : d.Sound finished :=
      ⟨hordered, fun name text hname => hcomplete.denotes name text (hpart name text hname)⟩
    have hgrounded : ∀ entry ∈ visits, d.Grounded entry.1 := by
      intro entry hentry
      exact grounded_of_expand h ((hvisits entry.1 entry.2).mp hentry)
    obtain ⟨expanded', hok, hcomplete'⟩ := hsound.exists_complete
      (visits_of_forall fun name template => (hvisits name template).mp) hgrounded
      fun name template => (hvisits name template).mpr
    rw [hok, hcomplete.unique hcomplete']

/-- Three names, each of which refers to the next, the first one twice. -/
def nestedDigits : Definitions :=
  ofList [("a", "#\x7bb\x7d#\x7bb\x7d"), ("b", "#\x7bc\x7d|x"), ("c", "[0-9]")]

/-- The names are visited from the last to the first, with the second one finished at the start. -/
theorem expand_eq_substitution_nestedDigits :
    ∃ expanded, nestedDigits.expand.outcome = .ok expanded ∧
      expanded.find? "a" = some "(?:(?:[0-9])|x)(?:(?:[0-9])|x)" ∧
      nestedDigits.IsSolution expanded.find? ∧
      (nestedDigits.expandEntries nestedDigits.entries.reverse
        (ofList [("b", "(?:[0-9])|x")])).outcome = .ok expanded := by
  have hok : nestedDigits.expand.outcome = .ok (ofList
      [("a", "(?:(?:[0-9])|x)(?:(?:[0-9])|x)"), ("b", "(?:[0-9])|x"), ("c", "[0-9]")]) := by
    decide +kernel
  have hordered : nestedDigits.Ordered := by decide +kernel
  have hpart : (ofList [("b", "(?:[0-9])|x")]).GrowsTo (ofList
      [("a", "(?:(?:[0-9])|x)(?:(?:[0-9])|x)"), ("b", "(?:[0-9])|x"), ("c", "[0-9]")]) := by
    intro name text hname
    obtain ⟨rfl, rfl⟩ : name = "b" ∧ text = "(?:[0-9])|x" := by
      simpa [ofList, insert, insertEntry, empty] using mem_entries_of_find? hname
    decide +kernel
  obtain ⟨hsolution, _, hvisits⟩ := expand_eq_substitution hok
  refine ⟨_, hok, by decide +kernel, hsolution, ?_⟩
  refine hvisits _ _ (fun name template => ?_) (by decide +kernel) hpart
  rw [List.mem_reverse, hordered.mem_entries_iff]

end Definitions

end TreeQuery
