import TreeQuery.Proofs.Grammar.Identifier
import TreeQuery.Proofs.Pattern.Anchored

/-! # Fragments — what the fragment of a rule matches from start to end

    The lexer decides the pattern of every rule, so the fragment of a rule matches a
    text from start to end exactly if the lexer reads the whole text by that rule.
    The same holds of the definition of identifiers, from which the rules are made.
-/

namespace TreeQuery.Grammar.Standard

open Pattern Lexer

/-- The fragments of the standard grammar are those of its rules. -/
theorem fragment?_of_outcome {g : Grammar} (hg : Grammar.standard.outcome = .ok g) (rule : Rule) :
    g.fragment? rule = some (ruleText rule) := by
  obtain ⟨definitions, hstandard⟩ := outcome_standard
  obtain rfl := Except.ok.inj (hg.symm.trans hstandard)
  cases rule <;> rfl

/-- The standard grammar defines identifiers. -/
theorem find?_ident_of_outcome {g : Grammar} (hg : Grammar.standard.outcome = .ok g) :
    g.definitions.find? "ident" = some identText := by
  have hident : (Templates.standard.definitions.expand.outcome.map fun definitions =>
      definitions.find? "ident") = .ok (some identText) := by
    with_unfolding_all rfl
  obtain ⟨definitions, hdefinitions, hfragments⟩ := Journal.outcome_bind_eq_ok_iff.mp hg
  obtain ⟨fragments, _, hscanner⟩ := Journal.outcome_bind_eq_ok_iff.mp hfragments
  obtain ⟨scanner, _, hpure⟩ := Journal.outcome_bind_eq_ok_iff.mp hscanner
  obtain rfl : (⟨definitions, fragments, scanner⟩ : Grammar) = g := Except.ok.inj hpure
  rw [hdefinitions] at hident
  exact Except.ok.inj hident

/-! ### Between the anchors -/

/-- The fragment of a rule between the anchors. -/
theorem ofString_anchored (rule : Rule) :
    ofString ("^(?:" ++ ruleText rule ++ ")$") = .ok (anchored (ruleParts rule)) := by
  refine Journal.eq_ok_of_toOption ?_
  unfold ofString
  cases rule
  all_goals
    simp only [String.toList_append, ruleText, identText, unitText, escapeText, nonAsciiText,
      unicodeText, toList_spelled, toList_grouped, List.flatMap_cons, List.flatMap_nil]
    decide +kernel

theorem productive_anchored (rule : Rule) : (anchored (ruleParts rule)).Productive := by
  cases rule <;> decide

/-- The definition of identifiers between the anchors. -/
theorem ofString_anchored_ident :
    ofString ("^(?:" ++ identText ++ ")$") = .ok (anchored identParts) := by
  refine Journal.eq_ok_of_toOption ?_
  unfold ofString
  simp only [String.toList_append, identText, unitText, escapeText, nonAsciiText, unicodeText,
    toList_spelled, toList_grouped, List.flatMap_cons, List.flatMap_nil]
  decide +kernel

theorem productive_anchored_ident : (anchored identParts).Productive := by decide

/-! ### Whole texts -/

/-- A fragment whose parts are decided by a lexer matches a text from start to end iff the lexer
    leaves nothing of it. -/
theorem matchesWhole_iff_of_decides {fragment : String} {ps : List Pattern}
    {lexer : List Char → Option (List Char)}
    (hspells : ofString ("^(?:" ++ fragment ++ ")$") = .ok (anchored ps))
    (hproductive : (anchored ps).Productive) (hdecides : Decides (chain ps).readings lexer)
    (text : String) : MatchesWhole fragment text ↔ lexer text.toList = some [] := by
  have hwhole : MatchesWhole fragment text ↔ [] ∈ (chain ps).readings.tails text.toList := by
    rw [← occurrences_anchored_ne_nil_iff hproductive]
    unfold MatchesWhole
    rw [hspells]
    constructor
    · rintro ⟨p, hp, hfound⟩
      rwa [← Except.ok.inj hp] at hfound
    · intro hfound
      exact ⟨_, rfl, hfound⟩
  rw [hwhole]
  constructor
  · -- a tail that is not preferred goes on with a character, so the empty tail is
    intro hmem
    rcases hdecides.others text.toList [] hmem with hread | ⟨c, rest, hcons, _⟩
    · exact hread
    · cases hcons
  · intro hread
    refine List.mem_of_head? ?_
    rw [hdecides.head, hread]

/-- **Whole texts**: a fragment matches a text from start to end iff the lexer reads the whole text
    by the rule of the fragment. -/
theorem matchesWhole_ruleText_iff (rule : Rule) (text : String) :
    MatchesWhole (ruleText rule) text ↔ readAs? rule text.toList = some [] :=
  matchesWhole_iff_of_decides (ofString_anchored rule) (productive_anchored rule)
    (decides_rule rule) text

/-- The definition of identifiers matches a text from start to end iff the lexer reads the whole
    text as an identifier. -/
theorem matchesWhole_identText_iff (text : String) :
    MatchesWhole identText text ↔ ident? text.toList = some [] :=
  matchesWhole_iff_of_decides ofString_anchored_ident productive_anchored_ident decides_ident text

end TreeQuery.Grammar.Standard
