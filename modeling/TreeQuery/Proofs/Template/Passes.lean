import TreeQuery.Proofs.Template.Substitution

/-! # Passes — a new name among the definitions, or after them

    Definitions are expanded against each other by a walk that keeps a table and the
    names under way; a template is then expanded against the finished texts by one
    loop over its pieces. A name that the definitions do not have may be expanded
    either way, with the same text or the same fault.

    * **Faults of a template**: a template that can be read fails at the first name
      without a text, in whichever way its references are looked up.
    * **A new name**: what names denote stays, and a new name whose template is filled
      completes the table.
    * **A new fault**: a name that does not expand is not on solid ground, so no other
      name leads to it. Its entry is the first one to fail, and what its template
      refers to has a text there exactly if it has one in the end.

    Main statement: `expand_insert_eq_insert_expand`
-/

namespace TreeQuery

/-! ### Faults of a template -/

namespace Template

variable {texts : String → Option String} {look : Definitions → String → Journal Grammar.Fault
  (Definitions × String)} {finished finished' : Definitions} {ps : List Piece}
  {owner template text : String} {fault : Grammar.Fault}

/-- The first name without a text that some pieces refer to. -/
def missing? (texts : String → Option String) : List Piece → Option String
  | [] => none
  | .literal _ :: ps => missing? texts ps
  | .reference name :: ps =>
    if (texts (String.ofList name)).isSome then missing? texts ps else some (String.ofList name)

/-- Why a template does not expand, given the texts of names. -/
inductive Fails (texts : String → Option String) (owner template : String) :
    Grammar.Fault → Prop where
  /-- It cannot be read. -/
  | reference {f : Fault} : read template.toList = .error f →
      Fails texts owner template (.reference f)
  /-- It refers to a name without a text. -/
  | unknownName {pieces : List Piece} {name : String} : read template.toList = .ok pieces →
      missing? texts pieces = some name → Fails texts owner template (.unknownName name owner)

/-- Lookups that answer for the names that some pieces refer to: a name with a text is found, a name
    without is unknown. They may change their table as long as they keep `kept`. -/
structure Answers (texts : String → Option String) (owner : String) (kept : Definitions → Prop)
    (look : Definitions → String → Journal Grammar.Fault (Definitions × String))
    (ps : List Piece) : Prop where
  found : ∀ name text, .reference name ∈ ps → texts (String.ofList name) = some text →
    ∀ finished, kept finished →
      ∃ r, (look finished (String.ofList name)).outcome = .ok r ∧ kept r.1
  unknown : ∀ name, .reference name ∈ ps → texts (String.ofList name) = none →
    ∀ finished, kept finished → (look finished (String.ofList name)).outcome =
      .error (.unknownName (String.ofList name) owner)

/-- Pieces fail at the first name without a text. -/
theorem Answers.outcome_expandPieces_eq_error_iff {kept : Definitions → Prop}
    (h : Answers texts owner kept look ps) (hkept : kept finished) :
    (expandPieces look ps finished).outcome = .error fault ↔
      ∃ name, missing? texts ps = some name ∧ fault = .unknownName name owner := by
  -- by induction on the pieces: lookups that succeed only change the table
  induction ps generalizing finished with
  | nil => simp [expandPieces, missing?]
  | cons p ps ih =>
    have hlater : Answers texts owner kept look ps :=
      ⟨fun name text hname => h.found name text (List.mem_cons_of_mem p hname),
        fun name hname => h.unknown name (List.mem_cons_of_mem p hname)⟩
    cases p with
    | literal cs =>
      simp [expandPieces, missing?, Journal.outcome_bind_eq_error_iff, ih hlater hkept]
    | reference name =>
      cases htext : texts (String.ofList name) with
      | none =>
        have hfails := h.unknown name List.mem_cons_self htext finished hkept
        rw [expandPieces, Journal.bind_of_error hfails]
        simp [missing?, htext, eq_comm]
      | some text =>
        obtain ⟨r, hok, hkept'⟩ := h.found name text List.mem_cons_self htext finished hkept
        rw [expandPieces, Journal.bind_of_ok hok]
        simp [missing?, htext, Journal.outcome_bind_eq_error_iff, ih hlater hkept']

/-- The finished text of a name. -/
def finishedText (owner : String) (finished : Definitions) (name : String) :
    Journal Grammar.Fault (Definitions × String) :=
  match finished.find? name with
  | some text => pure (finished, text)
  | none => .fail (.unknownName name owner)

theorem expand_eq (owner template : String) (finished : Definitions) :
    expand owner template finished =
      readIn template >>= fun ps => expandPieces (finishedText owner) ps finished >>= fun r =>
        pure r.2 := rfl

/-- Against finished texts, pieces expand to what they are filled with. -/
theorem outcome_expandPieces_finishedText_eq_ok_iff :
    (expandPieces (finishedText owner) ps finished).outcome = .ok (finished', text) ↔
      finished = finished' ∧ fill? finished.find? ps = some text := by
  induction ps generalizing text with
  | nil => simp [expandPieces, fill?]
  | cons p ps ih =>
    cases p with
    | literal cs =>
      simp [expandPieces, fill?_literal, Journal.outcome_bind_eq_ok_iff, ih, and_assoc]
    | reference name =>
      rw [expandPieces, fill?_reference, finishedText]
      cases finished.find? (String.ofList name) with
      | none => simp [Journal.outcome_bind_eq_ok_iff]
      | some inner => simp [Journal.outcome_bind_eq_ok_iff, ih, and_assoc]

/-- A template expands against finished texts to what its pieces are filled with. -/
theorem outcome_expand_eq_ok_iff : (expand owner template finished).outcome = .ok text ↔
    ∃ pieces, read template.toList = .ok pieces ∧ fill? finished.find? pieces = some text := by
  simp only [expand_eq, Journal.outcome_bind_eq_ok_iff, outcome_readIn_eq_ok_iff]
  constructor
  · rintro ⟨pieces, hread, r, hpieces, htext⟩
    obtain rfl := Except.ok.inj htext
    exact ⟨pieces, hread, (outcome_expandPieces_finishedText_eq_ok_iff.mp hpieces).2⟩
  · rintro ⟨pieces, hread, hfill⟩
    exact ⟨pieces, hread, _, outcome_expandPieces_finishedText_eq_ok_iff.mpr ⟨rfl, hfill⟩, rfl⟩

/-- What starts with the reading of a template fails as the template does, if what comes after fails
    as its pieces do. -/
theorem outcome_readIn_bind_eq_error_iff {α : Type} {next : List Piece → Journal Grammar.Fault α}
    (hnext : ∀ pieces fault, read template.toList = .ok pieces →
      ((next pieces).outcome = .error fault ↔
        ∃ name, missing? texts pieces = some name ∧ fault = .unknownName name owner)) :
    (readIn template >>= next).outcome = .error fault ↔ Fails texts owner template fault := by
  rw [Journal.outcome_bind_eq_error_iff]
  constructor
  · rintro (h | ⟨pieces, hread, h⟩)
    · obtain ⟨f, hread, rfl⟩ := outcome_readIn_eq_error_iff.mp h
      exact .reference hread
    · have hread := outcome_readIn_eq_ok_iff.mp hread
      obtain ⟨name, hname, rfl⟩ := (hnext pieces fault hread).mp h
      exact .unknownName hread hname
  · rintro (@⟨f, hread⟩ | @⟨pieces, name, hread, hname⟩)
    · exact .inl (outcome_readIn_eq_error_iff.mpr ⟨f, hread, rfl⟩)
    · exact .inr ⟨pieces, outcome_readIn_eq_ok_iff.mpr hread,
        (hnext pieces _ hread).mpr ⟨name, hname, rfl⟩⟩

theorem answers_finishedText (owner : String) (finished : Definitions) (ps : List Piece) :
    Answers finished.find? owner (· = finished) (finishedText owner) ps where
  found name text _ htext := by
    rintro _ rfl
    exact ⟨(_, text), by rw [finishedText, htext]; rfl, rfl⟩
  unknown name _ htext := by
    rintro _ rfl
    rw [finishedText, htext]
    rfl

theorem outcome_expand_eq_error_iff : (expand owner template finished).outcome = .error fault ↔
    Fails finished.find? owner template fault := by
  rw [expand_eq]
  apply outcome_readIn_bind_eq_error_iff
  intro pieces fault _
  rw [← (answers_finishedText owner finished pieces).outcome_expandPieces_eq_error_iff rfl,
    Journal.outcome_bind_eq_error_iff]
  simp

/-- A template that is expanded while the table grows fails in the same way, if lookups answer for
    its names at any table. -/
theorem outcome_expandTemplate_eq_error_iff
    (h : ∀ pieces, read template.toList = .ok pieces →
      Answers texts owner (fun _ => True) look pieces) :
    (Definitions.expandTemplate look finished owner template).outcome = .error fault ↔
      Fails texts owner template fault := by
  apply outcome_readIn_bind_eq_error_iff
  intro pieces fault hread
  have hpieces : (expandPieces look pieces finished).outcome = .error fault ↔ _ :=
    (h pieces hread).outcome_expandPieces_eq_error_iff trivial
  rw [← hpieces, Journal.outcome_bind_eq_error_iff]
  simp [Journal.outcome_bind_eq_error_iff]

end Template

namespace Definitions

variable {d r finished : Definitions} {name other template text : String} {fault : Grammar.Fault}

/-! ### A new name -/

theorem find?_insert_of_find? (hnew : d.find? name = none) (hother : d.find? other = some text) :
    (d.insert name template).find? other = some text := by
  have hne : other ≠ name := by
    rintro rfl
    cases hother.symm.trans hnew
  rw [find?_insert_of_ne _ _ hne, hother]

/-- What a name denotes stays when there is a new name. -/
theorem Denotes.insert (h : d.Denotes other text) (hnew : d.find? name = none) :
    (d.insert name template).Denotes other text := by
  induction h with
  | intro hother hread hfill _ ih =>
    exact .intro (find?_insert_of_find? hnew hother) hread hfill ih

theorem Sound.insert_definition (h : d.Sound finished) (hnew : d.find? name = none) :
    (d.insert name template).Sound finished where
  ordered := h.ordered
  denotes other text hother := (h.denotes other text hother).insert hnew

/-- A new name whose template is filled completes the table. -/
theorem Complete.insert {pieces : List Template.Piece} (h : d.Complete r)
    (hnew : d.find? name = none) (hread : Template.read template.toList = .ok pieces)
    (hfill : Template.fill? r.find? pieces = some text) :
    (d.insert name template).Complete (r.insert name text) := by
  have hsound : (d.insert name template).Sound r := h.insert_definition hnew
  have hname : (d.insert name template).Denotes name text :=
    .intro (find?_insert_self ..) hread hfill fun inner text _ hinner =>
      hsound.denotes (String.ofList inner) text hinner
  refine ⟨hsound.insert hname, ?_⟩
  intro other template' hother
  by_cases heq : other = name
  · rw [heq]
    exact ⟨text, find?_insert_self ..⟩
  · rw [find?_insert_of_ne _ _ heq] at hother ⊢
    exact h.covers other template' hother

/-- The entry of a new name is put between the others. -/
theorem exists_entries_insert (hnew : d.find? name = none) (template : String) :
    ∃ front back, d.entries = front ++ back ∧
      (d.insert name template).entries = front ++ (name, template) :: back := by
  obtain ⟨entries⟩ := d
  show ∃ front back, entries = front ++ back ∧
    insertEntry name template entries = front ++ (name, template) :: back
  induction entries with
  | nil => exact ⟨[], [], rfl, rfl⟩
  | cons entry entries ih =>
    obtain ⟨key, old⟩ := entry
    have hne : key ≠ name := by
      rintro rfl
      simp [find?] at hnew
    have hrest : find? ⟨entries⟩ name = none := by
      simpa [find?, hne] using hnew
    rw [insertEntry, if_neg hne.symm]
    by_cases hlt : name < key
    · exact ⟨[], (key, old) :: entries, rfl, if_pos hlt⟩
    · obtain ⟨front, back, hentries, hinsert⟩ := ih hrest
      rw [if_neg hlt, hinsert]
      exact ⟨(key, old) :: front, back, congrArg _ hentries, rfl⟩

/-- Visits go on where those before have ended. -/
theorem expandEntries_append {front back : List (String × String)} {finished' : Definitions}
    (h : (d.expandEntries front finished).outcome = .ok finished') :
    (d.expandEntries (front ++ back) finished).outcome =
      (d.expandEntries back finished').outcome := by
  induction front generalizing finished with
  | nil =>
    obtain rfl := Except.ok.inj h
    rfl
  | cons entry front ih =>
    obtain ⟨name, template⟩ := entry
    obtain ⟨r, hfirst, h⟩ := Journal.outcome_bind_eq_ok_iff.mp h
    rw [List.cons_append, expandEntries, Journal.bind_of_ok hfirst]
    exact ih h

/-! ### A new fault -/

/-- Whatever solid ground leads to is solid ground. -/
theorem Grounded.of_reflTransGen (h : d.Grounded name)
    (hleads : Relation.ReflTransGen d.Refers name other) : d.Grounded other := by
  induction hleads with
  | refl => exact h
  | tail _ hinner ih => exact ih.of_refers hinner

section

variable (hapart : ∀ pieces, Template.read template.toList = .ok pieces →
  .reference name.toList ∉ pieces)

include hapart

theorem ne_of_reference_mem {pieces : List Template.Piece} {inner : List Char}
    (hread : Template.read template.toList = .ok pieces) (hinner : .reference inner ∈ pieces) :
    String.ofList inner ≠ name := by
  rintro rfl
  rw [String.toList_ofList] at hapart
  exact hapart pieces hread hinner

variable (h : d.Complete r)

include h

/-- A new name on solid ground expands against the finished texts, too. -/
theorem exists_expand_of_grounded_insert (hgrounded : (d.insert name template).Grounded name) :
    ∃ text, (Template.expand name template r).outcome = .ok text := by
  obtain ⟨pieces, hread⟩ := hgrounded.exists_read (find?_insert_self ..)
  have htexts : ∀ inner, .reference inner ∈ pieces →
      ∃ text, r.find? (String.ofList inner) = some text := by
    intro inner hinner
    have hne := ne_of_reference_mem hapart hread hinner
    have hrefers := Refers.intro (find?_insert_self d name template) hread hinner
    obtain ⟨template', hfound⟩ := (hgrounded.of_refers hrefers).exists_find?
    rw [find?_insert_of_ne _ _ hne] at hfound
    exact h.covers _ template' hfound
  obtain ⟨text, hfill⟩ := Template.exists_fill?_iff.mpr htexts
  exact ⟨text, Template.outcome_expand_eq_ok_iff.mpr ⟨pieces, hread, hfill⟩⟩

variable (hnew : d.find? name = none)

include hnew

/-- A new name that is not on solid ground fails among the definitions as it does after them. No
    other name leads to it, so whatever its template refers to expands, or is unknown. -/
theorem Expands.outcome_eq_error_of_fails {j : Journal Grammar.Fault (Definitions × String)}
    (hrun : (d.insert name template).Expands [] finished name j)
    (hunfinished : finished.find? name = none) (hnot : ¬(d.insert name template).Grounded name)
    (hfails : Template.Fails r.find? name template fault) : j.outcome = .error fault := by
  cases hrun with
  | finished hfinished => cases hfinished.symm.trans hunfinished
  | cycle _ hpending => cases hpending
  | @template _ _ _ template' look _ _ hname hnone hsome =>
    obtain rfl := Option.some.inj ((find?_insert_self d name template).symm.trans hname)
    have hanswers : ∀ pieces, Template.read template.toList = .ok pieces →
        Template.Answers r.find? name (fun _ => True) look pieces := by
      intro pieces hread
      constructor
      · -- what has a text in the end expands here, too, as it does not need the new name
        intro inner text hinner htext finished _
        have hdenotes : (d.insert name template).Denotes (String.ofList inner) text :=
          (h.denotes _ text htext).insert hnew
        have haway : ∀ p ∈ [name], ¬Relation.ReflTransGen (d.insert name template).Refers
            (String.ofList inner) p := by
          intro p hp hleads
          rw [List.mem_singleton.mp hp] at hleads
          exact hnot (hdenotes.grounded.of_reflTransGen hleads)
        obtain ⟨template', hfound⟩ := hdenotes.exists_find?
        have hinnerRun := hsome _ template' (.intro hname hread hinner) hfound finished
        obtain ⟨r, hok⟩ := hinnerRun.exists_ok hdenotes.grounded haway
        exact ⟨r, hok, trivial⟩
      · -- what has no text in the end is not defined, and is not the new name itself
        intro inner hinner htext finished _
        have hunknown : (d.insert name template).find? (String.ofList inner) = none := by
          rw [find?_insert_of_ne _ _ (ne_of_reference_mem hapart hread hinner)]
          exact h.find?_eq_none htext
        rw [hnone _ (.intro hname hread hinner) hunknown]
        rfl
    exact (Template.outcome_expandTemplate_eq_error_iff hanswers).mpr hfails

/-- If a new name fails after the definitions, they fail in the same way with it among them. -/
theorem outcome_expand_insert_eq_error
    (hfault : (Template.expand name template r).outcome = .error fault) :
    (d.insert name template).expand.outcome = .error fault := by
  have hnot : ¬(d.insert name template).Grounded name := by
    intro hgrounded
    obtain ⟨text, hok⟩ := exists_expand_of_grounded_insert hapart h hgrounded
    cases hok.symm.trans hfault
  obtain ⟨front, back, hentries, hinsert⟩ := exists_entries_insert hnew template
  -- the entries in front of the new one are on solid ground
  have hvisits : (d.insert name template).Visits [] (front ++ (name, template) :: back) :=
    visits_of_entries_eq hinsert
  have hfront : ∀ entry ∈ front, (d.insert name template).Grounded entry.1 := by
    intro entry hentry
    have hmem : entry ∈ d.entries := by
      rw [hentries]
      exact List.mem_append_left _ hentry
    obtain ⟨template', hfound⟩ := exists_find?_of_mem_entries hmem
    obtain ⟨text, htext⟩ := h.covers _ template' hfound
    exact ((h.denotes _ text htext).insert hnew).grounded
  obtain ⟨finished, hok, hsound, _, hcovers⟩ := (sound_empty _).exists_expandEntries
    (fun _ hmem => absurd hmem List.not_mem_nil) hvisits.left hfront
  -- they do not finish the new name on the way, so its own entry is the first to fail
  have hunfinished : finished.find? name = none := by
    cases hfound : finished.find? name with
    | none => rfl
    | some text => exact absurd (hsound.denotes name text hfound).grounded hnot
  have hrun := expands_visit (.inr (find?_insert_self d name template)) hcovers
  have herror := hrun.outcome_eq_error_of_fails hapart h hnew hunfinished hnot
    (Template.outcome_expand_eq_error_iff.mp hfault)
  rw [expand, hinsert, expandEntries_append hok, expandEntries, Journal.bind_of_error herror]

end

/-- **Two passes.** A new name that does not refer to itself is expanded among definitions as it is
    after them: if its template expands against the finished texts, the definitions with it expand
    to the finished texts with its own, and if its template fails, they fail with the same fault.
    The texts of the other names stay as they are. -/
theorem expand_insert_eq_insert_expand (h : d.expand.outcome = .ok r) (hnew : d.find? name = none)
    (hapart : ∀ pieces, Template.read template.toList = .ok pieces →
      .reference name.toList ∉ pieces) :
    (∀ text, (Template.expand name template r).outcome = .ok text →
      (d.insert name template).expand.outcome = .ok (r.insert name text)) ∧
    (∀ fault, (Template.expand name template r).outcome = .error fault →
      (d.insert name template).expand.outcome = .error fault) ∧
    ∀ r' other, (d.insert name template).expand.outcome = .ok r' → other ≠ name →
      r'.find? other = r.find? other := by
  have hcomplete := complete_of_expand h
  have hok : ∀ text, (Template.expand name template r).outcome = .ok text →
      (d.insert name template).expand.outcome = .ok (r.insert name text) := by
    intro text htext
    obtain ⟨pieces, hread, hfill⟩ := Template.outcome_expand_eq_ok_iff.mp htext
    exact (hcomplete.insert hnew hread hfill).outcome_expand
  have herror : ∀ fault, (Template.expand name template r).outcome = .error fault →
      (d.insert name template).expand.outcome = .error fault :=
    fun fault => outcome_expand_insert_eq_error hapart hcomplete hnew
  refine ⟨hok, herror, ?_⟩
  intro r' other hr' hne
  cases houtcome : (Template.expand name template r).outcome with
  | ok text =>
    obtain rfl := Except.ok.inj ((hok text houtcome).symm.trans hr')
    exact find?_insert_of_ne r text hne
  | error fault =>
    cases (herror fault houtcome).symm.trans hr'

/-- A new name that is expanded before the others, and comes to two of them ahead of their turn; and
    one that refers to a name that nothing defines. -/
theorem expand_insert_eq_insert_expand_nestedDigits :
    ∃ r, nestedDigits.expand.outcome = .ok r ∧
      (nestedDigits.insert "A" "#\x7bc\x7d-#\x7bb\x7d").expand.outcome =
        .ok (r.insert "A" "(?:[0-9])-(?:(?:[0-9])|x)") ∧
      (nestedDigits.insert "A" "#\x7bc\x7d#\x7bd\x7d").expand.outcome =
        .error (.unknownName "d" "A") := by
  have hok : nestedDigits.expand.outcome = .ok (ofList
      [("a", "(?:(?:[0-9])|x)(?:(?:[0-9])|x)"), ("b", "(?:[0-9])|x"), ("c", "[0-9]")]) := by
    decide +kernel
  have hnew : nestedDigits.find? "A" = none := by decide +kernel
  have hdash : Template.read "#\x7bc\x7d-#\x7bb\x7d".toList =
      .ok [.reference ['c'], .literal ['-'], .reference ['b']] := by decide +kernel
  have hunknown : Template.read "#\x7bc\x7d#\x7bd\x7d".toList =
      .ok [.reference ['c'], .reference ['d']] := by decide +kernel
  refine ⟨_, hok, ?_, ?_⟩
  · refine (expand_insert_eq_insert_expand hok hnew fun pieces hread => ?_).1 _ (by decide +kernel)
    obtain rfl := Except.ok.inj (hdash.symm.trans hread)
    decide
  · refine (expand_insert_eq_insert_expand hok hnew fun pieces hread => ?_).2.1 _
      (by decide +kernel)
    obtain rfl := Except.ok.inj (hunknown.symm.trans hread)
    decide

end Definitions

end TreeQuery
