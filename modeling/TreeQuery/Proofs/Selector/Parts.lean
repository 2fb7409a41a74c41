import TreeQuery.Proofs.Grammar.Fragments
import TreeQuery.Proofs.Selector.Splitting
import TreeQuery.Proofs.Selector.Tokens

/-! # Parts — a token falls apart where the grammar has put it together

    Where the parts of a token end is decided twice: by the grammar, which reads one
    identifier after another, and by the criterion, which looks for a marker that no
    backslash escapes. The two agree.

    * **Identifiers**: the splitter passes over what the lexer reads as an
      identifier, whatever escapes there are in it.
    * **Criteria**: the names in the criterion of a token are identifiers, and with
      the markers put back they are the token.
-/

namespace TreeQuery

open Lexer

/-! ### Identifiers -/

/-- The markers between the parts of a token. -/
def IsMarker (c : Char) : Prop := c = '#' ∨ c = '.'

theorem IsMarker.toNat {marker : Char} (h : IsMarker marker) :
    marker.toNat = 35 ∨ marker.toNat = 46 := by
  rcases h with rfl | rfl
  · exact .inl rfl
  · exact .inr rfl

theorem IsMarker.ne_backslash {marker : Char} (h : IsMarker marker) : marker ≠ '\\' := by
  rcases h with rfl | rfl
  · decide
  · decide

/-- What is read up to some tail, all of it passed over. -/
def PassesTo (marker : Char) (cs rest : List Char) : Prop :=
  ∃ read, cs = read ++ rest ∧ Passes marker read

theorem PassesTo.refl (marker : Char) (cs : List Char) : PassesTo marker cs cs :=
  ⟨[], rfl, passes_nil marker⟩

theorem PassesTo.trans {marker : Char} {cs ds es : List Char} (h : PassesTo marker cs ds)
    (h' : PassesTo marker ds es) : PassesTo marker cs es := by
  obtain ⟨read, rfl, hread⟩ := h
  obtain ⟨more, rfl, hmore⟩ := h'
  exact ⟨read ++ more, (List.append_assoc ..).symm, hread.append hmore⟩

theorem PassesTo.cons {marker c : Char} (hmarker : c ≠ marker) (hc : c ≠ '\\') (cs : List Char) :
    PassesTo marker (c :: cs) cs :=
  ⟨[c], rfl, passes_singleton hmarker hc⟩

variable {marker : Char}

theorem passesTo_afterDigits (hmarker : IsMarker marker) (n : Nat) (cs : List Char) :
    PassesTo marker cs (afterDigits n cs) := by
  induction n generalizing cs with
  | zero => exact .refl marker cs
  | succ n ih =>
    cases cs with
    | nil => exact .refl marker []
    | cons c cs =>
      simp only [afterDigits]
      by_cases hc : isHexDigit c = true
      · rw [if_pos hc]
        rw [isHexDigit_iff] at hc
        have hcode := hmarker.toNat
        have hbackslash : '\\'.toNat = 92 := rfl
        refine (PassesTo.cons ?_ ?_ cs).trans (ih cs) <;> rw [Ne, char_eq_iff] <;> omega
      · rw [if_neg hc]
        exact .refl marker _

theorem passesTo_afterBlank (hmarker : IsMarker marker) (cs : List Char) :
    PassesTo marker cs (afterBlank cs) := by
  have hblank : ∀ {c : Char} (cs : List Char), Text.isBlank c = true →
      PassesTo marker (c :: cs) cs := by
    intro c cs hc
    rw [isBlank_iff] at hc
    have hcode := hmarker.toNat
    have hbackslash : '\\'.toNat = 92 := rfl
    refine .cons ?_ ?_ cs <;> rw [Ne, char_eq_iff] <;> omega
  unfold afterBlank
  split
  · exact .refl marker []
  · split
    · next hc => exact hblank [] hc
    · exact .refl marker _
  · split
    · next hpair =>
      obtain ⟨rfl, rfl⟩ := hpair
      exact (hblank _ rfl).trans (hblank _ rfl)
    · split
      · next hc => exact hblank _ hc
      · exact .refl marker _

theorem passesTo_unit? (hmarker : IsMarker marker) {plain : Char → Bool}
    (hplain : ∀ c, plain c = true → isNameChar c = true) {cs rest : List Char}
    (h : unit? plain cs = some rest) : PassesTo marker cs rest := by
  cases cs with
  | nil => cases h
  | cons c cs =>
    rcases unit?_cons_eq_some_iff.mp h with ⟨hc, rfl⟩ | ⟨_, rfl, hescape⟩
    · -- a character that stands for itself is neither a marker nor a backslash
      have hname : isNameChar c = true ∨ 0x80 ≤ c.toNat := hc.imp_left (hplain c)
      rw [isNameChar_iff] at hname
      have hcode := hmarker.toNat
      have hbackslash : '\\'.toNat = 92 := rfl
      refine .cons ?_ ?_ cs <;> rw [Ne, char_eq_iff] <;> omega
    · cases cs with
      | nil => cases hescape
      | cons d cs =>
        have hescaped : PassesTo marker ('\\' :: d :: cs) cs :=
          ⟨['\\', d], rfl, passes_escaped marker d⟩
        rcases escape?_cons_eq_some_iff.mp hescape with ⟨_, rfl⟩ | ⟨_, _, rfl⟩
        · exact (hescaped.trans (passesTo_afterDigits hmarker 5 cs)).trans
            (passesTo_afterBlank hmarker _)
        · exact hescaped

theorem passesTo_afterUnits (hmarker : IsMarker marker) (cs : List Char) :
    PassesTo marker cs (afterUnits cs) := by
  induction cs using units_induction with
  | stop cs hunit =>
    rw [afterUnits_of_none hunit]
    exact .refl marker cs
  | unit cs rest hunit ih =>
    rw [afterUnits_of_some hunit]
    exact (passesTo_unit? hmarker (fun _ hc => hc) hunit).trans ih

/-- The splitter passes over an identifier. -/
theorem passesTo_ident? (hmarker : IsMarker marker) {cs rest : List Char}
    (h : ident? cs = some rest) : PassesTo marker cs rest := by
  obtain ⟨m, hm, rfl⟩ := Option.map_eq_some_iff.mp h
  have hsign : PassesTo marker cs (afterSign cs) := by
    unfold afterSign
    split
    · exact .refl marker []
    · split
      · next hc =>
        -- the signs are no markers
        refine .cons ?_ ?_ _
        · rcases hc with rfl | rfl <;> rcases hmarker with rfl | rfl <;> decide
        · rcases hc with rfl | rfl <;> decide
      · exact .refl marker _
  have hstart : PassesTo marker (afterSign cs) m :=
    passesTo_unit? hmarker (fun _ hc => isNameChar_of_isNameStart hc) hm
  exact (hsign.trans hstart).trans (passesTo_afterUnits hmarker m)

/-- An identifier has no marker that is not escaped. -/
theorem passes_of_ident? (hmarker : IsMarker marker) {cs : List Char} (h : ident? cs = some []) :
    Passes marker cs := by
  obtain ⟨read, rfl, hread⟩ := passesTo_ident? hmarker h
  rwa [List.append_nil]

/-! ### Criteria -/

/-- The marker that the texts of a kind have, if any. -/
def Kind.marker? : Kind → Option Char
  | .nameAndId => some '#'
  | .id => some '#'
  | .name => none
  | .className => some '.'
  | .nameAndClass => some '.'

/-- The names in a criterion. -/
def Criterion.names : Criterion → List String
  | .nameAndId tag key => [tag, key]
  | .id key => [key]
  | .name tag => [tag]
  | .className token => [token]
  | .nameAndClass tag token => [tag, token]

/-- The names in a criterion with the markers put back. -/
def Criterion.spelled : Criterion → String
  | .nameAndId tag key => tag ++ "#" ++ key
  | .id key => "#" ++ key
  | .name tag => tag
  | .className token => "." ++ token
  | .nameAndClass tag token => tag ++ "." ++ token

/-- The name behind a marker at the start of a text is what the lexer reads there. -/
theorem afterMarker_of_marked? (hmarker : IsMarker marker) {text : String}
    (h : marked? marker text.toList = some []) :
    ident? (afterMarker marker text).toList = some [] ∧
      marker :: (afterMarker marker text).toList = text.toList ∧
      splitUnescaped marker text.toList ≠ none := by
  obtain ⟨last, htext, hlast⟩ := marked?_eq_some_iff.mp h
  have hsplit : splitUnescaped marker text.toList = some ([], last) := by
    rw [htext]
    exact (passes_nil marker).splitUnescaped_marker hmarker.ne_backslash last
  have hafter : (afterMarker marker text).toList = last := by
    unfold afterMarker
    rw [hsplit]
    exact String.toList_ofList
  rw [hafter, hsplit]
  exact ⟨hlast, htext.symm, Option.some_ne_none _⟩

/-- The names on both sides of a marker are what the lexer reads there. -/
theorem parts_of_ident?_marked? (hmarker : IsMarker marker) {text : String}
    (h : (ident? text.toList).bind (marked? marker) = some []) :
    ident? (parts marker text).1.toList = some [] ∧
      ident? (parts marker text).2.toList = some [] ∧
      (parts marker text).1.toList ++ marker :: (parts marker text).2.toList = text.toList ∧
      splitUnescaped marker text.toList ≠ none := by
  obtain ⟨rest, hrest, hmarked⟩ := Option.bind_eq_some_iff.mp h
  obtain ⟨last, rfl, hlast⟩ := marked?_eq_some_iff.mp hmarked
  obtain ⟨first, htext, hpasses⟩ := passesTo_ident? hmarker hrest
  have hfirst : ident? first = some [] := by
    rw [htext] at hrest
    exact cuts_ident?.alone hrest
  have hsplit : splitUnescaped marker text.toList = some (first, last) := by
    rw [htext]
    exact hpasses.splitUnescaped_marker hmarker.ne_backslash last
  rw [parts_of_splitUnescaped hsplit, hsplit, String.toList_ofList, String.toList_ofList]
  exact ⟨hfirst, hlast, htext.symm, Option.some_ne_none _⟩

namespace Criterion

/-- A criterion is taken from a text in agreement with the lexer: its names are identifiers, with
    the markers put back they are the text, and a marker that should be there has been found. -/
structure Agrees (kind : Kind) (text : String) : Prop where
  names : ∀ name ∈ (parse kind text).names, ident? name.toList = some []
  spelled : (parse kind text).spelled = text
  divided : ∀ marker, kind.marker? = some marker → splitUnescaped marker text.toList ≠ none

/-- What the lexer reads by the rule of a kind is taken apart in agreement with it. -/
theorem agrees_of_readAs? {kind : Kind} {text : String}
    (h : readAs? kind.rule text.toList = some []) : Agrees kind text := by
  have hmarker : ∀ {c : Char}, splitUnescaped c text.toList ≠ none → kind.marker? = some c →
      ∀ marker, kind.marker? = some marker → splitUnescaped marker text.toList ≠ none := by
    intro c hdivided hc marker hkind
    obtain rfl : c = marker := Option.some.inj (hc.symm.trans hkind)
    exact hdivided
  cases kind with
  | nameAndId =>
    obtain ⟨hfirst, hlast, htext, hdivided⟩ := parts_of_ident?_marked? (.inl rfl) h
    refine ⟨?_, String.toList_inj.mp ?_, hmarker hdivided rfl⟩
    · exact List.forall_mem_cons.mpr ⟨hfirst, List.forall_mem_singleton.mpr hlast⟩
    · show ((parts '#' text).1 ++ "#" ++ (parts '#' text).2).toList = text.toList
      rw [← htext]
      simp
  | id =>
    obtain ⟨hlast, htext, hdivided⟩ := afterMarker_of_marked? (.inl rfl) h
    refine ⟨List.forall_mem_singleton.mpr hlast, String.toList_inj.mp ?_, hmarker hdivided rfl⟩
    show ("#" ++ afterMarker '#' text).toList = text.toList
    rw [← htext]
    simp
  | name => exact ⟨List.forall_mem_singleton.mpr h, rfl, nofun⟩
  | className =>
    obtain ⟨hlast, htext, hdivided⟩ := afterMarker_of_marked? (.inr rfl) h
    refine ⟨List.forall_mem_singleton.mpr hlast, String.toList_inj.mp ?_, hmarker hdivided rfl⟩
    show ("." ++ afterMarker '.' text).toList = text.toList
    rw [← htext]
    simp
  | nameAndClass =>
    obtain ⟨hfirst, hlast, htext, hdivided⟩ := parts_of_ident?_marked? (.inr rfl) h
    refine ⟨?_, String.toList_inj.mp ?_, hmarker hdivided rfl⟩
    · exact List.forall_mem_cons.mpr ⟨hfirst, List.forall_mem_singleton.mpr hlast⟩
    · show ((parts '.' text).1 ++ "." ++ (parts '.' text).2).toList = text.toList
      rw [← htext]
      simp

end Criterion

/-! ### The parts of a token -/

/-- **Main theorem**: the names in the criterion of a token are not empty, and the standard
    definition of identifiers matches each of them from start to end. With the markers put back
    they are the text of the token. A marker that the kind of the token has is found in its text,
    not escaped, and none is left in a name but those that are escaped. -/
theorem names_and_spelled_of_mem_tokens {g : Grammar} (hg : Grammar.standard.outcome = .ok g)
    {mode : Selector.Mode} {selector : String} {tokens : List Token}
    (h : (Selector.tokenize g mode selector).outcome = .ok tokens) {t : Token} (ht : t ∈ tokens) :
    (∃ fragment, g.definitions.find? "ident" = some fragment ∧
      ∀ name ∈ t.criterion.names, name ≠ "" ∧ Pattern.MatchesWhole fragment name) ∧
    t.criterion.kind = t.kind ∧ t.criterion.spelled = t.text ∧
    (∀ marker, t.kind.marker? = some marker →
      ∃ before after, splitUnescaped marker t.text.toList = some (before, after) ∧
        t.text.toList = before ++ marker :: after ∧ isEscaping before = false) ∧
    ∀ name ∈ t.criterion.names,
      splitUnescaped '#' name.toList = none ∧ splitUnescaped '.' name.toList = none := by
  have hagrees := Criterion.agrees_of_readAs? (Selector.readAs?_of_mem_tokens hg h ht)
  refine ⟨⟨_, Grammar.Standard.find?_ident_of_outcome hg, ?_⟩, Criterion.kind_parse _ _,
    hagrees.spelled, ?_, ?_⟩
  · intro name hname
    have hident := hagrees.names name hname
    refine ⟨?_, (Grammar.Standard.matchesWhole_identText_iff name).mpr hident⟩
    rintro rfl
    cases hident
  · intro marker hmarker
    obtain ⟨⟨before, after⟩, hsplit⟩ :=
      Option.ne_none_iff_exists'.mp (hagrees.divided marker hmarker)
    obtain ⟨htext, hbefore⟩ := splitUnescaped_eq_some hsplit
    exact ⟨before, after, hsplit, htext, hbefore⟩
  · intro name hname
    have hident := hagrees.names name hname
    exact ⟨(passes_of_ident? (.inl rfl) hident).undivided,
      (passes_of_ident? (.inr rfl) hident).undivided⟩

/-- Escaped markers do not end a name, and a marker behind an escaped backslash does. -/
theorem names_and_spelled_escaped :
    ∃ g, Grammar.standard.outcome = .ok g ∧
      (Selector.tokenize g .strict "p\\#x.y\\.z é\\23 \\\\#ü").outcome =
        .ok [⟨"p\\#x.y\\.z", .nameAndClass⟩, ⟨"é\\23 \\\\#ü", .nameAndId⟩] ∧
      (Token.criterion ⟨"é\\23 \\\\#ü", .nameAndId⟩).names = ["é\\23 \\\\", "ü"] ∧
      (Token.criterion ⟨"é\\23 \\\\#ü", .nameAndId⟩).spelled = "é\\23 \\\\#ü" ∧
      ∃ fragment, g.definitions.find? "ident" = some fragment ∧
        Pattern.MatchesWhole fragment "é\\23 \\\\" ∧ Pattern.MatchesWhole fragment "ü" := by
  obtain ⟨g, hg⟩ := Grammar.Standard.exists_standard
  have htokens : (Selector.tokenize g .strict "p\\#x.y\\.z é\\23 \\\\#ü").outcome =
      .ok [⟨"p\\#x.y\\.z", .nameAndClass⟩, ⟨"é\\23 \\\\#ü", .nameAndId⟩] := by
    rw [Selector.outcome_tokenize hg]
    refine Journal.eq_ok_of_toOption ?_
    decide +kernel
  obtain ⟨⟨fragment, hfragment, hnames⟩, _, hspelled, _⟩ :=
    names_and_spelled_of_mem_tokens hg htokens (List.mem_cons_of_mem _ List.mem_cons_self)
  have heq : (Token.criterion ⟨"é\\23 \\\\#ü", .nameAndId⟩).names = ["é\\23 \\\\", "ü"] := by
    decide +kernel
  rw [heq] at hnames
  exact ⟨_, hg, htokens, heq, hspelled, fragment, hfragment, (hnames _ List.mem_cons_self).2,
    (hnames _ (List.mem_cons_of_mem _ List.mem_cons_self)).2⟩

end TreeQuery
