import TreeQuery.Proofs.Search.Evaluation
import TreeQuery.Proofs.Selector.Modes
import TreeQuery.Proofs.Text.Canonical

/-! # Wording — only the words of a selector matter

    A selector is brought to its normal form before anything else is done with it.
    So two selectors with the same words, whatever blanks stand between and around
    them, are read alike under every grammar, and alike is what is found for them:

    * **Reading**: the whole run is the same, its tokens or its fault, and all that
      it reports.
    * **Searching**: the answers and the warnings are the same. Only the report
      that a search has ended names the selector as it was written.
-/

namespace TreeQuery

/-! ### Reading -/

/-- A selector is read by its normal form alone. -/
theorem Selector.tokenize_of_normalize_eq {s t : String} (h : normalize s = normalize t)
    (g : Grammar) (mode : Mode) : tokenize g mode s = tokenize g mode t := by
  unfold tokenize
  rw [h]

namespace Engine

theorem tokenize_of_normalize_eq {s t : String} (h : normalize s = normalize t) (e : Engine) :
    e.tokenize s = e.tokenize t := by
  unfold tokenize
  rw [Selector.tokenize_of_normalize_eq h]

/-! ### Searching -/

/-- A search warns of nothing but what its selector gives rise to. -/
theorem warnings_search (e : Engine) (d : Document) (selector : String) (root : Option NodeId) :
    (e.search d selector root).warnings = (e.tokenize selector).warnings := by
  unfold search
  cases hread : (e.tokenize selector).outcome with
  | error fault => exact Journal.warnings_bind_of_error hread _
  | ok tokens =>
    rw [Journal.warnings_bind_of_ok hread]
    -- candidates and matches are reported, and neither is a warning
    cases Query.ofTokens? tokens with
    | none => exact List.append_nil _
    | some q => exact List.append_nil _

/-- The answers to a selector depend on what it is read as. -/
theorem outcome_search_of_tokenize_eq {e : Engine} {s t : String} (h : e.tokenize s = e.tokenize t)
    (d : Document) (root : Option NodeId) :
    (e.search d s root).outcome = (e.search d t root).outcome := by
  cases hread : (e.tokenize s).outcome with
  | error fault =>
    rw [outcome_search_of_error hread, outcome_search_of_error (h ▸ hread)]
  | ok tokens => rw [outcome_search hread, outcome_search (h ▸ hread)]

end Engine

/-- Two selectors are read alike, whatever the grammar and the mode, and alike is what is found for
    them in every document. -/
structure ReadAlike (s t : String) : Prop where
  /-- The same tokens or the same fault, in the same place, and the same reports. -/
  tokenize : ∀ (g : Grammar) (mode : Selector.Mode),
    Selector.tokenize g mode s = Selector.tokenize g mode t
  /-- The same nodes or the same fault, and the same warnings. -/
  search : ∀ (e : Engine) (d : Document) (root : Option NodeId),
    (e.search d s root).outcome = (e.search d t root).outcome ∧
      (e.search d s root).warnings = (e.search d t root).warnings
  closest? : ∀ (e : Engine) (d : Document) (n root : NodeId),
    e.closest? d n s root = e.closest? d n t root

theorem readAlike_of_normalize_eq {s t : String} (h : normalize s = normalize t) :
    ReadAlike s t where
  tokenize := Selector.tokenize_of_normalize_eq h
  search e d root := by
    have hread : e.tokenize s = e.tokenize t := Engine.tokenize_of_normalize_eq h e
    refine ⟨Engine.outcome_search_of_tokenize_eq hread d root, ?_⟩
    rw [Engine.warnings_search, Engine.warnings_search, hread]
  closest? e d n root := by
    unfold Engine.closest?
    rw [Engine.tokenize_of_normalize_eq h]

/-! ### Words -/

theorem normalize_eq_iff {s t : String} :
    normalize s = normalize t ↔
      ∃ runs, Text.HasRuns s.toList runs ∧ Text.HasRuns t.toList runs := by
  rw [← String.toList_inj, toList_normalize, toList_normalize, Text.normalForm_inj]
  constructor
  · intro h
    exact ⟨Text.words s.toList, Text.hasRuns_iff.mpr rfl, Text.hasRuns_iff.mpr h.symm⟩
  · rintro ⟨runs, hs, ht⟩
    rw [hs.words_eq, ht.words_eq]

/-- **Main theorem**: the normal form of a selector has no blanks but single spaces inside, holds
    all other characters in order, and is its own normal form. Two selectors have the same normal
    form exactly if they have the same runs of characters that are no blanks, of which every
    selector has one list; and then they are read alike and the same is found for them. A piece of
    a selector in which none of the five separators stands lies within one run. -/
theorem normalize_canonical_and_readAlike (s t : String) :
    Text.IsNormal (normalize s).toList ∧
    ((normalize s).toList.filter fun c => !Text.isBlank c) =
      (s.toList.filter fun c => !Text.isBlank c) ∧
    normalize (normalize s) = normalize s ∧
    (∃! runs, Text.HasRuns s.toList runs) ∧
    (normalize s = normalize t ↔
      ∃ runs, Text.HasRuns s.toList runs ∧ Text.HasRuns t.toList runs) ∧
    ((∃ runs, Text.HasRuns s.toList runs ∧ Text.HasRuns t.toList runs) → ReadAlike s t) ∧
    (∀ runs piece, Text.HasRuns s.toList runs → piece ≠ [] → piece <:+: s.toList →
      (∀ c ∈ Text.separators, c ∉ piece) → ∃ run ∈ runs, piece <:+: run) := by
  have hnormal : Text.IsNormal (normalize s).toList := by
    rw [toList_normalize]
    exact Text.isNormal_normalForm s.toList
  refine ⟨hnormal, ?_, ?_, ?_, normalize_eq_iff, ?_, ?_⟩
  · -- both hold what the words hold
    rw [toList_normalize, ← Text.flatten_words, Text.words_normalForm, Text.flatten_words]
  · rw [← String.toList_inj, toList_normalize (normalize s)]
    exact Text.isNormal_iff.mp hnormal
  · refine ⟨Text.words s.toList, Text.hasRuns_iff.mpr rfl, ?_⟩
    intro runs hruns
    exact hruns.words_eq.symm
  · intro hruns
    exact readAlike_of_normalize_eq (normalize_eq_iff.mpr hruns)
  · intro runs piece hruns hne hpiece hnone
    rw [← hruns.words_eq]
    exact Text.exists_word_of_infix hpiece hne (Text.noBlank_iff.mpr hnone)

/-- A no-break space belongs to a name and a vertical tab to nothing, and neither separates. So
    the strict reading complains of the tab, at the same place however the words are spaced. -/
theorem readAlike_noBreakSpace :
    normalize "\t ul\u00a0x\r\n\n b\x0bc\x0c" = "ul\u00a0x b\x0bc" ∧
    normalize "ul\u00a0x b\x0bc" = "ul\u00a0x b\x0bc" ∧
    ReadAlike "\t ul\u00a0x\r\n\n b\x0bc\x0c" "ul\u00a0x b\x0bc" ∧
    (∃ run ∈ ["ul\u00a0x".toList, "b\x0bc".toList], "b\x0bc".toList <:+: run) ∧
    ∃ e : Engine, (Engine.standard .strict).outcome = .ok e ∧
      (e.tokenize "ul\u00a0x b\x0bc").outcome =
        .error (.selector (.malformed ⟨7, "\x0b"⟩)) ∧
      e.tokenize "\t ul\u00a0x\r\n\n b\x0bc\x0c" = e.tokenize "ul\u00a0x b\x0bc" := by
  have hruns : Text.HasRuns "\t ul\u00a0x\r\n\n b\x0bc\x0c".toList
      ["ul\u00a0x".toList, "b\x0bc".toList] := Text.hasRuns_iff.mpr (by decide +kernel)
  have hruns' : Text.HasRuns "ul\u00a0x b\x0bc".toList
      ["ul\u00a0x".toList, "b\x0bc".toList] := Text.hasRuns_iff.mpr (by decide +kernel)
  obtain ⟨-, -, -, -, hsame, halike, hpiece⟩ := normalize_canonical_and_readAlike
    "\t ul\u00a0x\r\n\n b\x0bc\x0c" "ul\u00a0x b\x0bc"
  have hform : normalize "ul\u00a0x b\x0bc" = "ul\u00a0x b\x0bc" := by decide +kernel
  have hread := halike ⟨_, hruns, hruns'⟩
  obtain ⟨e, he⟩ := Engine.exists_standard .strict
  refine ⟨(hsame.mpr ⟨_, hruns, hruns'⟩).trans hform, hform, hread, ?_, e, he, ?_, ?_⟩
  · refine hpiece _ _ hruns ?_ ⟨"\t ul\u00a0x\r\n\n ".toList, "\x0c".toList, ?_⟩ ?_
    · decide +kernel
    · decide +kernel
    · simp [Text.separators]
  · obtain ⟨hgrammar, hmode⟩ := Engine.grammar_and_mode_of_standard he
    unfold Engine.tokenize
    rw [Journal.outcome_mapFault, hmode, Selector.outcome_tokenize hgrammar]
    decide +kernel
  · unfold Engine.tokenize
    rw [hread.tokenize]

end TreeQuery
