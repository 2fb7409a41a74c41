import TreeQuery.Selector.Tokenizing
import TreeQuery.Proofs.Grammar.Layout
import TreeQuery.Proofs.Text.Words

/-! # Strict reading loses nothing

    In strict mode the tokens of a selector account for every byte of its normal
    form. The checks that see to this are local: nothing or a single space in front
    of a hit, no hit that touches the one before it, nothing or a single space
    behind the last one. Together with two facts they determine the whole text:

    * the hits of a scanner are stretches of the text that stand one behind the
      other, whatever the rules of the grammar may read;
    * a normal form neither starts nor ends with a space.
-/

namespace TreeQuery.Selector

/-! ### The checks of strict reading -/

theorem misplaced_strict_ne_ok (m : Malformed) (u : Unit) :
    (misplaced .strict m).outcome ≠ .ok u := nofun

/-- In strict mode nothing but a single space may stand in a gap. -/
theorem gap_of_checkGap_strict {subject : List Char} {start stop : Nat} {u : Unit}
    (h : (checkGap .strict subject start stop).outcome = .ok u) :
    Text.slice subject start stop = [] ∨ Text.slice subject start stop = [' '] := by
  unfold checkGap at h
  by_cases hgap : Text.slice subject start stop = [] ∨ Text.slice subject start stop = [' ']
  · exact hgap
  · rw [if_neg hgap] at h
    exact absurd h (misplaced_strict_ne_ok _ u)

/-- In strict mode exactly a single space stands between two hits. -/
theorem gap_of_checkBefore_strict {before gap after : List Char} {hit : Hit} {u : Unit}
    (hstart : hit.start = Text.byteLength before + Text.byteLength gap)
    (h : (checkBefore .strict (before ++ (gap ++ after)) (some (Text.byteLength before))
      hit).outcome = .ok u) : gap = [' '] := by
  unfold checkBefore at h
  by_cases htouches : some (Text.byteLength before) = some hit.start
  · rw [if_pos htouches] at h
    exact absurd h (misplaced_strict_ne_ok _ u)
  · rw [if_neg htouches, hstart] at h
    have hgap := gap_of_checkGap_strict h
    rw [Option.getD_some, Text.slice_append] at hgap
    rcases hgap with rfl | hgap
    · -- a hit without a gap in front of it would touch the one before
      exact absurd (congrArg some hstart.symm) htouches
    · exact hgap

/-- Reading a hit: it has a kind, what stands in front of it is in place, and the hits behind it
    are read. -/
theorem tokensOf_cons_eq_ok_iff {mode : Mode} {subject : List Char} {previous : Option Nat}
    {hit : Hit} {hits : List Hit} {tokens : List Token} :
    (tokensOf mode subject previous (hit :: hits)).outcome = .ok tokens ↔
      ∃ kind others, hit.rule.kind? = some kind ∧
        (checkBefore mode subject previous hit).outcome = .ok () ∧
        (tokensOf mode subject (some hit.stop) hits).outcome = .ok others ∧
        tokens = ⟨hit.text, kind⟩ :: others := by
  rw [tokensOf]
  cases hkind : hit.rule.kind? with
  | none => simp
  | some kind =>
    simp only [Journal.outcome_bind_eq_ok_iff, Journal.outcome_pure, Except.ok.injEq,
      Option.some.injEq]
    constructor
    · rintro ⟨u, hbefore, others, hothers, rfl⟩
      exact ⟨kind, others, rfl, hbefore, hothers, rfl⟩
    · rintro ⟨_, others, rfl, hbefore, hothers, rfl⟩
      exact ⟨(), hbefore, others, hothers, rfl⟩

/-! ### What the tokens spell -/

/-- The texts of tokens, each with a space in front. -/
def spelled (tokens : List Token) : List Char :=
  tokens.flatMap fun t => ' ' :: t.text.toList

theorem spelled_cons (t : Token) (tokens : List Token) :
    spelled (t :: tokens) = ' ' :: (t.text.toList ++ spelled tokens) := rfl

/-- Tokens joined by single spaces are the first of them and what the others spell. -/
theorem toList_intercalate_cons (t : Token) (tokens : List Token) :
    (" ".intercalate ((t :: tokens).map Token.text)).toList = t.text.toList ++ spelled tokens := by
  have hspace : " ".toList = [' '] := by decide
  rw [String.toList_intercalate, hspace, List.map_cons, List.map_cons, Text.intercalate_space_cons]
  unfold spelled
  rw [List.map_map, List.flatMap_map]
  rfl

/-- Nothing or a single space. -/
def IsGap (cs : List Char) : Prop := cs = [] ∨ cs = [' ']

/-- At the end of a selector a gap is left, and there are no more tokens. -/
theorem isGap_of_tokensOf_strict_nil {before rest : List Char} {previous : Option Nat}
    {tokens : List Token} (hprevious : previous.getD 0 = Text.byteLength before)
    (h : (tokensOf .strict (before ++ rest) previous []).outcome = .ok tokens) :
    tokens = [] ∧ IsGap rest := by
  rw [tokensOf, hprevious, Text.byteLength_append] at h
  obtain ⟨u, hgap, htokens⟩ := Journal.outcome_bind_eq_ok_iff.mp h
  have hslice := Text.slice_append before rest []
  rw [List.append_nil] at hslice
  have hrest := gap_of_checkGap_strict hgap
  rw [hslice] at hrest
  exact ⟨(Except.ok.inj htokens).symm, hrest⟩

/-- Behind a hit stand the other tokens with a space in front of each. -/
theorem exists_spelled_of_tokensOf_strict {before rest : List Char} {hits : List Hit}
    {tokens : List Token} (halong : Hit.Along (Text.byteLength before) rest hits)
    (h : (tokensOf .strict (before ++ rest) (some (Text.byteLength before)) hits).outcome =
      .ok tokens) : ∃ trail, IsGap trail ∧ rest = spelled tokens ++ trail := by
  generalize hoffset : Text.byteLength before = offset at halong
  -- by induction on the hits: what has been read moves to the front
  induction halong generalizing before tokens with
  | nil offset rest =>
    obtain ⟨rfl, hgap⟩ := isGap_of_tokensOf_strict_nil rfl h
    exact ⟨rest, hgap, rfl⟩
  | @cons offset gap read after hits rule _ ih =>
    subst hoffset
    obtain ⟨kind, others, _, hbefore, hothers, rfl⟩ := tokensOf_cons_eq_ok_iff.mp h
    obtain rfl := gap_of_checkBefore_strict rfl hbefore
    have hread : Text.byteLength (before ++ [' '] ++ read) =
        Text.byteLength before + Text.byteLength [' '] + Text.byteLength read := by
      rw [Text.byteLength_append, Text.byteLength_append]
    obtain ⟨trail, htrail, rfl⟩ := @ih (before ++ [' '] ++ read) others
      (by rw [hread, List.append_assoc, List.append_assoc]; exact hothers) hread
    refine ⟨trail, htrail, ?_⟩
    rw [spelled_cons, String.toList_ofList]
    simp

/-- The tokens of a text are what it holds between the gaps at its ends. -/
theorem exists_gaps_of_tokensOf_strict {text : List Char} {hits : List Hit} {tokens : List Token}
    (halong : Hit.Along 0 text hits)
    (h : (tokensOf .strict text none hits).outcome = .ok tokens) :
    ∃ lead trail, IsGap lead ∧ IsGap trail ∧
      text = lead ++ ((" ".intercalate (tokens.map Token.text)).toList ++ trail) := by
  cases halong with
  | nil =>
    obtain ⟨rfl, hgap⟩ := @isGap_of_tokensOf_strict_nil [] text none tokens rfl h
    exact ⟨text, [], hgap, .inl rfl, by simp⟩
  | @cons _ lead read after hits rule hrest =>
    obtain ⟨kind, others, _, hbefore, hothers, rfl⟩ := tokensOf_cons_eq_ok_iff.mp h
    have hlead : IsGap lead := by
      unfold checkBefore at hbefore
      rw [if_neg nofun] at hbefore
      have hgap := gap_of_checkGap_strict hbefore
      have hslice := Text.slice_append [] lead (read ++ after)
      rw [List.nil_append, Text.byteLength_nil] at hslice
      rwa [Option.getD_none, hslice] at hgap
    have hread : Text.byteLength (lead ++ read) =
        0 + Text.byteLength lead + Text.byteLength read := by
      rw [Text.byteLength_append, Nat.zero_add]
    rw [← hread] at hrest hothers
    rw [← List.append_assoc] at hothers
    obtain ⟨trail, htrail, rfl⟩ := exists_spelled_of_tokensOf_strict hrest hothers
    refine ⟨lead, trail, hlead, htrail, ?_⟩
    rw [toList_intercalate_cons, String.toList_ofList, List.append_assoc]

/-! ### The normal form -/

/-- **Main theorem**: if strict reading succeeds, the texts of the tokens joined by single spaces
    are the normal form of the selector. -/
theorem intercalate_text_eq_normalize_of_strict (g : Grammar) (selector : String)
    {tokens : List Token} (h : (tokenize g .strict selector).outcome = .ok tokens) :
    " ".intercalate (tokens.map Token.text) = normalize selector ∧
      (tokens = [] → normalize selector = "") := by
  obtain ⟨read, hread, hnote⟩ := Journal.outcome_bind_eq_ok_iff.mp h
  obtain ⟨_, _, hpure⟩ := Journal.outcome_bind_eq_ok_iff.mp hnote
  obtain rfl : read = tokens := Except.ok.inj hpure
  have halong := g.scanner.along_scan (normalize selector)
  obtain ⟨lead, trail, hlead, htrail, htext⟩ := exists_gaps_of_tokensOf_strict halong hread
  have hnormal : (normalize selector).toList = Text.normalForm selector.toList :=
    toList_normalize selector
  -- a normal form has no space at its ends, so both gaps are empty
  have hleadNil : lead = [] := by
    rcases hlead with hlead | rfl
    · exact hlead
    · exact absurd (hnormal.symm.trans htext) (Text.normalForm_ne_space_cons _ _)
  have htrailNil : trail = [] := by
    rcases htrail with htrail | rfl
    · exact htrail
    · rw [← List.append_assoc] at htext
      exact absurd (hnormal.symm.trans htext) (Text.normalForm_ne_append_space _ _)
  rw [hleadNil, htrailNil, List.nil_append, List.append_nil] at htext
  have hjoined : " ".intercalate (read.map Token.text) = normalize selector :=
    String.toList_inj.mp htext.symm
  refine ⟨hjoined, ?_⟩
  rintro rfl
  exact hjoined.symm

/-- Templates with a rule that may read nothing and one that goes on outside of its group. -/
def looseTemplates : Templates where
  definitions := Definitions.empty.insert "w" "[a-z]"
  rules
    | .nameAndId => some "#\x7bw\x7d+##\x7bw\x7d+"
    | .id => some "##\x7bw\x7d+"
    | .className => some "x)|(y"
    | .nameAndClass => some "#\x7bw\x7d+[.]#\x7bw\x7d+"
    | .name => some "#\x7bw\x7d*"
    | .pseudoClass => some ":#\x7bw\x7d+"

/-- Names that may be empty are found behind a name and an id without being put in its way. -/
theorem intercalate_text_looseTemplates :
    ∃ g, (Grammar.build .unlimited looseTemplates).outcome = .ok g ∧
      (tokenize g .strict " a\t b#c z ").outcome =
        .ok [⟨"a", .name⟩, ⟨"b#c", .nameAndId⟩, ⟨"z", .name⟩] ∧
      " ".intercalate ["a", "b#c", "z"] = normalize " a\t b#c z " := by
  have hread : ((Grammar.build .unlimited looseTemplates).outcome.toOption.bind fun g =>
      (tokenize g .strict " a\t b#c z ").outcome.toOption) =
      some [⟨"a", .name⟩, ⟨"b#c", .nameAndId⟩, ⟨"z", .name⟩] := by decide +kernel
  obtain ⟨g, hbuild, htokens⟩ := Option.bind_eq_some_iff.mp hread
  have hstrict := Journal.eq_ok_of_toOption htokens
  have hjoined := (intercalate_text_eq_normalize_of_strict g " a\t b#c z " hstrict).1
  exact ⟨g, Journal.eq_ok_of_toOption hbuild, hstrict, hjoined⟩

end TreeQuery.Selector
