import TreeQuery.Grammar.Basic
import TreeQuery.Selector.Token
import TreeQuery.Text.Blank

/-! # Tokenizing — from a selector to its tokens

A selector is brought to its normal form and scanned. Every hit of the scanner is a token, unless
its rule has no kind, and what stands between two tokens must be a single space: nothing else
separates an ancestor from its descendant. Before the first token and after the last there may be
nothing at all. What is misplaced is passed over with a warning in lenient mode and ends the
reading in strict mode. A hit is classified before the text in front of it is looked at.
-/

namespace TreeQuery.Selector

/-- Passes over misplaced text with a warning, or fails on it. -/
def misplaced (mode : Mode) (m : Malformed) : Journal Fault Unit :=
  match mode with
  | .lenient => Journal.note (.ignored m)
  | .strict => .fail (.malformed m)

/-- Checks the text between two offsets of the subject: nothing and a single space are in place. -/
def checkGap (mode : Mode) (subject : List Char) (start stop : Nat) : Journal Fault Unit :=
  let gap := Text.slice subject start stop
  if gap = [] ∨ gap = [' '] then pure ()
  else misplaced mode ⟨start, String.ofList gap⟩

/-- Checks what stands in front of a hit. A hit that starts where the one before it has ended is
itself misplaced. -/
def checkBefore (mode : Mode) (subject : List Char) (previous : Option Nat) (hit : Hit) :
    Journal Fault Unit :=
  if previous = some hit.start then misplaced mode ⟨hit.start, hit.text⟩
  else checkGap mode subject (previous.getD 0) hit.start

/-- The tokens of a list of hits in a subject, given where the hit before them has ended. -/
def tokensOf (mode : Mode) (subject : List Char) :
    Option Nat → List Hit → Journal Fault (List Token)
  | previous, [] => do
    checkGap mode subject (previous.getD 0) (Text.byteLength subject)
    pure []
  | previous, hit :: hits =>
    match hit.rule.kind? with
    | none => .fail (.unsupported ⟨hit.text, hit.rule⟩)
    | some kind => do
      checkBefore mode subject previous hit
      let tokens ← tokensOf mode subject (some hit.stop) hits
      pure (⟨hit.text, kind⟩ :: tokens)

/-- The tokens of a selector under a grammar. -/
def tokenize (g : Grammar) (mode : Mode) (selector : String) : Journal Fault (List Token) := do
  let normalized := normalize selector
  let tokens ← tokensOf mode normalized.toList none (g.scanner.scan normalized)
  Journal.note (.tokenized normalized tokens.length)
  pure tokens

/-- The outcome of a selector is that of its hits. -/
theorem outcome_tokenize_eq (g : Grammar) (mode : Mode) (selector : String) :
    (tokenize g mode selector).outcome =
      (tokensOf mode (normalize selector).toList none
        (g.scanner.scan (normalize selector))).outcome := by
  unfold tokenize
  rw [Journal.outcome_bind]
  cases (tokensOf mode (normalize selector).toList none
    (g.scanner.scan (normalize selector))).outcome <;> rfl

end TreeQuery.Selector
