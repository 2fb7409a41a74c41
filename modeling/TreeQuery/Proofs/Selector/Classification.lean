import TreeQuery.Proofs.Grammar.Blanks
import TreeQuery.Proofs.Grammar.Fragments
import TreeQuery.Proofs.Selector.RoundTrip
import TreeQuery.Proofs.Selector.Tokens

/-! # Classification — what a rule matches is one token of its kind

    A text that the fragment of a rule matches from start to end is tokenized as one
    token of that rule, with one exception. Before a selector is scanned it is
    brought to its normal form, and that takes a blank from its end even if a
    backslash escapes the blank. The backslash is left behind and belongs to no
    token.

    * **Strict reading**: what it accounts for never ends in a backslash that
      escapes what comes next.
    * **Classification**: in all other cases the normal form is one token.
-/

namespace TreeQuery.Selector

open Lexer

/-! ### What strict reading accounts for -/

theorem IsGap.isEscaping {gap : List Char} (h : IsGap gap) : isEscaping gap = false := by
  rcases h with rfl | rfl
  · rfl
  · rfl

/-- No token ends in a backslash that escapes what comes next, so no list of them does. -/
theorem isEscaping_intercalate_text {tokens : List Token}
    (h : ∀ t ∈ tokens, isEscaping t.text.toList = false) :
    isEscaping (" ".intercalate (tokens.map Token.text)).toList = false := by
  have hspelled : ∀ others : List Token, (∀ t ∈ others, isEscaping t.text.toList = false) →
      isEscaping (spelled others) = false := by
    intro others hothers
    induction others with
    | nil => rfl
    | cons t others ih =>
      rw [spelled_cons]
      show Lexer.isEscaping (t.text.toList ++ spelled others) = false
      rw [isEscaping_append (hothers t List.mem_cons_self)]
      exact ih fun u hu => hothers u (List.mem_cons_of_mem t hu)
  cases tokens with
  | nil => rfl
  | cons t tokens =>
    rw [toList_intercalate_cons, isEscaping_append (h t List.mem_cons_self)]
    exact hspelled tokens fun u hu => h u (List.mem_cons_of_mem t hu)

/-- If strict reading succeeds, the normal form does not end in a backslash that escapes what comes
    next. -/
theorem isEscaping_normalize_of_strict {g : Grammar} (hg : Grammar.standard.outcome = .ok g)
    {selector : String} {tokens : List Token}
    (h : (tokenize g .strict selector).outcome = .ok tokens) :
    isEscaping (normalize selector).toList = false := by
  have hclosed : ∀ t ∈ tokens, isEscaping t.text.toList = false := by
    intro t ht
    obtain ⟨read, htext, hread⟩ := (closed_readAs? (readAs?_of_mem_tokens hg h ht)).1
    rwa [htext, List.append_nil]
  have halong := g.scanner.along_scan (normalize selector)
  rw [Grammar.Standard.scan_of_outcome hg] at halong
  rw [outcome_tokenize hg] at h
  obtain ⟨lead, trail, hlead, htrail, htext⟩ := exists_gaps_of_tokensOf_strict halong h
  rw [htext, isEscaping_append hlead.isEscaping,
    isEscaping_append (isEscaping_intercalate_text hclosed)]
  exact htrail.isEscaping

/-! ### Classification -/

/-- What a rule reads as a whole is one token of its kind. -/
theorem tokensOf_of_readAs? (mode : Mode) {kind : Kind} {cs : List Char}
    (h : readAs? kind.rule cs = some []) :
    tokensOf mode cs none (hits cs) = pure [⟨String.ofList cs, kind⟩] :=
  tokensOf_last (token?_of_readAs? h rfl rfl) [] none (Nat.le_refl _)
    fun _ => checkBefore_start mode cs

/-- **Main theorem**: a text that the fragment of a kind matches from start to end is read in
    strict mode as one token of that kind, and the text of the token is the normal form. The
    exception is a text that ends in an escaped blank, which cannot be read in strict mode. -/
theorem tokenize_strict_of_matchesWhole {g : Grammar} (hg : Grammar.standard.outcome = .ok g)
    {kind : Kind} {fragment : String} (hfragment : g.fragment? kind.rule = some fragment)
    {text : String} (h : Pattern.MatchesWhole fragment text) :
    (¬EndsEscaped text.toList →
      (tokenize g .strict text).outcome = .ok [⟨normalize text, kind⟩]) ∧
    (EndsEscaped text.toList → ∃ fault, (tokenize g .strict text).outcome = .error fault) := by
  rw [Grammar.Standard.fragment?_of_outcome hg] at hfragment
  rw [← Option.some.inj hfragment, Grammar.Standard.matchesWhole_ruleText_iff] at h
  have hnormal : (normalize text).toList = Text.normalForm text.toList := toList_normalize text
  constructor
  · intro hends
    rw [← isEscaping_normalForm_iff, Bool.not_eq_true] at hends
    have hread := readAs?_normalForm h hends
    rw [← hnormal] at hread
    rw [outcome_tokenize hg, tokensOf_of_readAs? .strict hread, String.ofList_toList]
    rfl
  · intro hends
    rw [← isEscaping_normalForm_iff, ← hnormal] at hends
    -- whatever strict reading accepts ends closed, which the normal form does not
    cases houtcome : (tokenize g .strict text).outcome with
    | error fault => exact ⟨fault, rfl⟩
    | ok tokens =>
      rw [isEscaping_normalize_of_strict hg houtcome] at hends
      cases hends

/-- An escaped tab inside a class, and the blank that ends a hexadecimal escape. -/
theorem tokenize_strict_escaped_tab :
    ∃ g, Grammar.standard.outcome = .ok g ∧
      (tokenize g .strict "h1.a\\\tb\\31 ").outcome = .ok [⟨"h1.a\\ b\\31", .nameAndClass⟩] := by
  obtain ⟨g, hg⟩ := Grammar.Standard.exists_standard
  have hfragment := Grammar.Standard.fragment?_of_outcome hg Kind.nameAndClass.rule
  have hmatches : Pattern.MatchesWhole _ "h1.a\\\tb\\31 " :=
    (Grammar.Standard.matchesWhole_ruleText_iff Kind.nameAndClass.rule _).mpr (by decide +kernel)
  have hends : ¬EndsEscaped "h1.a\\\tb\\31 ".toList := by
    rw [← isEscaping_normalForm_iff]
    decide +kernel
  have hstrict := (tokenize_strict_of_matchesWhole hg hfragment hmatches).1 hends
  have hnormal : normalize "h1.a\\\tb\\31 " = "h1.a\\ b\\31" := by decide +kernel
  rw [hnormal] at hstrict
  exact ⟨g, hg, hstrict⟩

/-- The fragment of names matches a letter and an escaped space, but strict reading fails on the
    backslash that is left of it. -/
theorem tokenize_strict_escaped_space :
    ∃ g, Grammar.standard.outcome = .ok g ∧
      (∃ fragment, g.fragment? Kind.name.rule = some fragment ∧
        Pattern.MatchesWhole fragment "a\\ ") ∧
      (tokenize g .strict "a\\ ").outcome = .error (.malformed ⟨1, "\\"⟩) := by
  obtain ⟨g, hg⟩ := Grammar.Standard.exists_standard
  refine ⟨g, hg, ⟨_, Grammar.Standard.fragment?_of_outcome hg Kind.name.rule, ?_⟩, ?_⟩
  · rw [Grammar.Standard.matchesWhole_ruleText_iff]
    decide +kernel
  · rw [outcome_tokenize hg]
    decide +kernel

end TreeQuery.Selector
