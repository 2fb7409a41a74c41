import TreeQuery.Proofs.Grammar.Identifier
import TreeQuery.Proofs.Grammar.Layout
import TreeQuery.Proofs.Pattern.Stepping

/-! # Scanning — the standard grammar is the lexer

    The joined pattern tries the rules in order, and each of them is decided by the
    lexer. So at every offset the two find the same token or none, and from left to
    right they find the same hits.
-/

namespace TreeQuery.Grammar.Standard

open Pattern Lexer

/-! ### One token -/

/-- A choice prefers the first alternative that has a reading. -/
theorem head?_readings_firstOf {ps : List Pattern} (hps : ps ≠ []) (c : Cursor) :
    ((firstOf ps).readings c).head? = ps.findSome? fun p => (p.readings c).head? := by
  induction ps with
  | nil => exact absurd rfl hps
  | cons p ps ih =>
    cases ps with
    | nil =>
      rw [List.findSome?_cons, List.findSome?_nil]
      show (p.readings c).head? = _
      cases (p.readings c).head? <;> rfl
    | cons q ps =>
      show (p.readings c ++ (firstOf (q :: ps)).readings c).head? = _
      rw [List.head?_append, ih (List.cons_ne_nil q ps)]
      conv => rhs; rw [List.findSome?_cons]
      cases (p.readings c).head? <;> rfl

/-- The joined pattern prefers the token that the lexer finds. -/
theorem head?_readings_pattern (offset : Nat) (cs : List Char) :
    (pattern.readings ⟨offset, cs, []⟩).head? =
      (token? cs).map fun token =>
        (Cursor.leap ⟨offset, cs, []⟩ token.2).mark token.1.groupName offset := by
  have hrule : ∀ rule, ((Pattern.group (some rule.groupName) (rulePattern rule)).readings
        ⟨offset, cs, []⟩).head? =
      (readAs? rule cs).map fun rest =>
        (Cursor.leap ⟨offset, cs, []⟩ rest).mark rule.groupName offset := by
    intro rule
    show (Reader.group rule.groupName (rulePattern rule).readings ⟨offset, cs, []⟩).head? = _
    unfold Reader.group
    rw [List.head?_map, (decides_rule rule).plain.eq_leap, List.head?_map,
      (decides_rule rule).head, Option.map_map]
    rfl
  refine (head?_readings_firstOf (by simp [Rule.all]) _).trans ?_
  rw [List.findSome?_map, token?_eq_findSome?, List.map_findSome?]
  congr 1
  funext rule
  show _ = ((readAs? rule cs).map _).map _
  rw [Option.map_map]
  exact hrule rule

/-! ### Hits -/

theorem productive_pattern : pattern.Productive := by decide

theorem canBeEmpty_pattern : pattern.canBeEmpty = false := by decide

/-- The occurrence of a token, as the scanner finds it. -/
def tokenOccurrence (offset : Nat) (cs : List Char) (rule : Rule) (rest : List Char) :
    Occurrence :=
  ((Cursor.leap ⟨offset, cs, []⟩ rest).mark rule.groupName offset).occurrence offset

/-- The hit of an occurrence is that of the lexer. -/
theorem hit?_tokenOccurrence (before read rest : List Char) (rule : Rule) :
    Scanner.hit? Rule.all (before ++ (read ++ rest))
        (tokenOccurrence (Text.byteLength before) (read ++ rest) rule rest) =
      some (hit (Text.byteLength before) (read ++ rest) rule rest) := by
  have hstop : Text.byteLength before + (Text.byteLength (read ++ rest) - Text.byteLength rest) =
      Text.byteLength (before ++ read) := by
    rw [Text.byteLength_append, Text.byteLength_append]
    omega
  have hslice : Text.slice (before ++ (read ++ rest)) (Text.byteLength before)
      (Text.byteLength (before ++ read)) = read := by
    unfold Text.slice
    rw [← List.append_assoc, Text.slice?_append]
    rfl
  have hhit := Scanner.hit?_occurrence_readingOf (Rule.mem_all rule) (before ++ (read ++ rest))
    (Text.byteLength before) (Text.byteLength (before ++ read))
  have hoccurrence : tokenOccurrence (Text.byteLength before) (read ++ rest) rule rest =
      (Scanner.readingOf rule (Text.byteLength before)
        (Text.byteLength (before ++ read))).occurrence (Text.byteLength before) := by
    rw [← hstop]
    rfl
  rw [hoccurrence, hhit, hit_append, ← Text.byteLength_append]
  unfold Scanner.hitOf
  rw [hslice]

/-- From any offset on, the scanner and the lexer find the same hits. -/
theorem filterMap_hit?_occurrencesFrom (n : Nat) (before cs : List Char) (last : Option Nat)
    (hn : cs.length ≤ n) :
    (occurrencesFrom pattern.searchPlan (Text.byteLength before) (Text.byteLength before) last
        cs).filterMap (Scanner.hit? Rule.all (before ++ cs)) =
      hitsWithin n (Text.byteLength before) cs := by
  induction n generalizing before cs last with
  | zero =>
    obtain rfl : cs = [] := List.eq_nil_of_length_eq_zero (Nat.le_zero.mp hn)
    rw [occurrencesFrom_nil productive_pattern canBeEmpty_pattern]
    rfl
  | succ n ih =>
    cases cs with
    | nil =>
      rw [occurrencesFrom_nil productive_pattern canBeEmpty_pattern]
      rfl
    | cons c cs =>
      have hhead := head?_readings_pattern (Text.byteLength before) (c :: cs)
      unfold hitsWithin
      cases htoken : token? (c :: cs) with
      | none =>
        -- no token starts here: both pass over the character
        rw [htoken] at hhead
        rw [occurrencesFrom_of_none productive_pattern last hhead]
        have hgoOn := ih (before ++ [c]) cs last (Nat.le_of_succ_le_succ hn)
        rw [List.append_assoc, Text.byteLength_append, Text.byteLength_cons,
          Text.byteLength_nil, Nat.add_zero] at hgoOn
        exact hgoOn
      | some token =>
        -- a token starts here: both go on behind it
        obtain ⟨rule, rest⟩ := token
        rw [htoken] at hhead
        obtain ⟨⟨read, hread, _⟩, hlt⟩ := closed_token? htoken
        have hstop : (Cursor.leap ⟨Text.byteLength before, c :: cs, []⟩ rest).offset =
            Text.byteLength (before ++ read) := by
          show Text.byteLength before + (Text.byteLength (c :: cs) - Text.byteLength rest) = _
          rw [hread, Text.byteLength_append, Text.byteLength_append]
          omega
        have hgoOn := ih (before ++ read) rest (some (Text.byteLength (before ++ read))) (by omega)
        rw [List.append_assoc, ← hread] at hgoOn
        have hhit := hit?_tokenOccurrence before read rest rule
        rw [← hread] at hhit
        have hend : (hit (Text.byteLength before) (c :: cs) rule rest).stop =
            Text.byteLength (before ++ read) := by
          rw [hread, hit_append, Text.byteLength_append]
        rw [occurrencesFrom_of_some productive_pattern canBeEmpty_pattern last hhead]
        show List.filterMap _ (tokenOccurrence _ (c :: cs) rule rest ::
          occurrencesFrom _ (Cursor.leap _ rest).offset (Cursor.leap _ rest).offset
            (some (Cursor.leap _ rest).offset) rest) = _
        rw [List.filterMap_cons_some hhit, hstop, hgoOn]
        simp only [hend]

/-- A scanner of the joined pattern finds what the lexer finds. -/
theorem scan_eq_hits {s : Scanner} (hpattern : s.pattern = pattern) (hrules : s.rules = Rule.all)
    (text : String) : s.scan text = hits text.toList := by
  unfold Scanner.scan occurrences hits
  rw [hpattern, hrules]
  exact filterMap_hit?_occurrencesFrom text.toList.length [] text.toList none (Nat.le_refl _)

/-- The scanner of the standard grammar finds what the lexer finds. -/
theorem scan_of_outcome {g : Grammar} (hg : Grammar.standard.outcome = .ok g) (text : String) :
    g.scanner.scan text = hits text.toList := by
  obtain ⟨definitions, hstandard⟩ := outcome_standard
  obtain rfl := Except.ok.inj (hg.symm.trans hstandard)
  exact scan_eq_hits rfl map_fst_fragments text

/-- **Main theorem**: the standard templates make a grammar, and its scanner finds in every text
    the hits that the lexer finds, with the same texts, offsets and rules. -/
theorem scan_standard_eq_hits :
    ∃ g, Grammar.standard.outcome = .ok g ∧
      ∀ text : String, g.scanner.scan text = Lexer.hits text.toList := by
  obtain ⟨definitions, hstandard⟩ := outcome_standard
  exact ⟨_, hstandard, scan_eq_hits rfl map_fst_fragments⟩

end TreeQuery.Grammar.Standard
