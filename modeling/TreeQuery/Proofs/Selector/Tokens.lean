import TreeQuery.Proofs.Grammar.Cutting
import TreeQuery.Proofs.Grammar.Scan
import TreeQuery.Proofs.Selector.Lossless

/-! # Tokens — what the standard grammar makes of a selector

    Under the standard grammar a selector is read by the lexer: its tokens are the
    hits of the lexer in its normal form. So the text of a token is read by the rule
    of its kind, with nothing left.
-/

namespace TreeQuery.Selector

open Lexer

/-- Under the standard grammar the tokens of a selector are made of the hits of the lexer. -/
theorem outcome_tokenize {g : Grammar} (hg : Grammar.standard.outcome = .ok g) (mode : Mode)
    (selector : String) :
    (tokenize g mode selector).outcome =
      (tokensOf mode (normalize selector).toList none
        (hits (normalize selector).toList)).outcome := by
  rw [← Grammar.Standard.scan_of_outcome hg (normalize selector), outcome_tokenize_eq]

/-- Every token comes from a hit, with the text of the hit and the kind of its rule. -/
theorem exists_hit_of_mem_tokensOf {mode : Mode} {subject : List Char} {previous : Option Nat}
    {hits : List Hit} {tokens : List Token}
    (h : (tokensOf mode subject previous hits).outcome = .ok tokens) {t : Token} (ht : t ∈ tokens) :
    ∃ hit ∈ hits, hit.rule.kind? = some t.kind ∧ hit.text = t.text := by
  induction hits generalizing previous tokens with
  | nil =>
    obtain ⟨_, _, hpure⟩ := Journal.outcome_bind_eq_ok_iff.mp h
    obtain rfl : [] = tokens := Except.ok.inj hpure
    cases ht
  | cons hit hits ih =>
    obtain ⟨kind, others, hkind, _, hothers, rfl⟩ := tokensOf_cons_eq_ok_iff.mp h
    rcases List.mem_cons.mp ht with rfl | ht
    · exact ⟨hit, List.mem_cons_self, hkind, rfl⟩
    · obtain ⟨other, hmem, hother⟩ := ih hothers ht
      exact ⟨other, List.mem_cons_of_mem hit hmem, hother⟩

/-- **Tokens**: the text of a token is read by the rule of its kind, with nothing left. -/
theorem readAs?_of_mem_tokens {g : Grammar} (hg : Grammar.standard.outcome = .ok g) {mode : Mode}
    {selector : String} {tokens : List Token}
    (h : (tokenize g mode selector).outcome = .ok tokens) {t : Token} (ht : t ∈ tokens) :
    readAs? t.kind.rule t.text.toList = some [] := by
  rw [outcome_tokenize hg] at h
  obtain ⟨hit, hmem, hkind, htext⟩ := exists_hit_of_mem_tokensOf h ht
  rw [← Rule.eq_rule_of_kind? hkind, ← htext]
  exact readAs?_of_mem_hits hmem

end TreeQuery.Selector
