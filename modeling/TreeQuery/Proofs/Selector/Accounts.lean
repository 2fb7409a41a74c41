import TreeQuery.Proofs.Grammar.Stretches
import TreeQuery.Proofs.Selector.Lossless
import TreeQuery.Proofs.Selector.Modes

/-! # Accounts — lenient reading accounts for every byte

    Lenient reading passes over what does not fit, but it does not pass over it in
    silence. The hits of a scanner cut a selector into tokens and the gaps around
    them, and what there is to complain about is told by the gaps alone:

    * a gap between two tokens that is empty, because the second one touches the
      first, and
    * a gap anywhere that holds more than a single space.

    The warnings of a lenient reading are these complaints, in order and each of
    them once. The proof goes along the hits and keeps the part of the cut that lies
    behind; the gaps in front of a hit without a kind are the last to be looked at.

    Main statement: `tokenize_lenient_accounts`
-/

namespace TreeQuery.Selector

/-! ### Cuts -/

/-- Gaps and texts in turn, beginning with a gap: `g₀ t₁ g₁ t₂ …`. -/
def weave : List (List Char) → List (List Char) → List Char
  | gap :: gaps, text :: texts => gap ++ (text ++ weave gaps texts)
  | gaps, _ => gaps.flatten

@[simp] theorem weave_cons_cons (gap text : List Char) (gaps texts : List (List Char)) :
    weave (gap :: gaps) (text :: texts) = gap ++ (text ++ weave gaps texts) := rfl

@[simp] theorem weave_singleton (gap : List Char) : weave [gap] [] = gap :=
  List.append_nil gap

theorem weave_append {gaps texts : List (List Char)} (h : gaps.length = texts.length)
    (gaps' texts' : List (List Char)) :
    weave (gaps ++ gaps') (texts ++ texts') = weave gaps texts ++ weave gaps' texts' := by
  induction gaps generalizing texts with
  | nil =>
    obtain rfl := List.eq_nil_of_length_eq_zero h.symm
    rfl
  | cons gap gaps ih =>
    cases texts with
    | nil => cases h
    | cons text texts =>
      have hrest := ih (Nat.succ.inj h)
      simp [hrest]

/-- A text cut at its tokens: the texts of the tokens, and the gaps around them. -/
structure Cut where
  gaps : List (List Char)
  texts : List (List Char)
  /-- There is a gap in front of every token and one behind the last. -/
  length_gaps : gaps.length = texts.length + 1

namespace Cut

/-- The text that has been cut. -/
def text (c : Cut) : List Char := weave c.gaps c.texts

/-- What stands in front of a gap. -/
def inFront (c : Cut) (i : Nat) : List Char := weave (c.gaps.take i) (c.texts.take i)

/-- What there is to complain about at a gap. If nothing separates two tokens, the second one is to
    blame; otherwise a gap must be empty or a single space. -/
def complaint? (c : Cut) (i : Nat) : Option Malformed :=
  let start := Text.byteLength (c.inFront i)
  c.gaps[i]?.bind fun gap =>
    if gap = [] then
      if 0 < i then c.texts[i]?.map fun text => ⟨start, String.ofList text⟩ else none
    else if gap = [' '] then none
    else some ⟨start, String.ofList gap⟩

/-- One more token in front, with a gap in front of it. -/
def push (c : Cut) (gap text : List Char) : Cut :=
  ⟨gap :: c.gaps, text :: c.texts, congrArg (· + 1) c.length_gaps⟩

theorem texts_push (c : Cut) (gap text : List Char) : (c.push gap text).texts = text :: c.texts :=
  rfl

theorem inFront_push (c : Cut) (gap text : List Char) (i : Nat) :
    (c.push gap text).inFront (i + 1) = gap ++ (text ++ c.inFront i) := rfl

/-- All complaints, from left to right. -/
def complaints (c : Cut) : List Malformed := (List.range c.gaps.length).filterMap c.complaint?

variable {c : Cut} {i : Nat} {gap text : List Char}

theorem length_take_gaps (hi : i ≤ c.texts.length) :
    (c.gaps.take i).length = (c.texts.take i).length := by
  have hgaps := c.length_gaps
  rw [List.length_take, List.length_take]
  omega

theorem text_eq (hi : i ≤ c.texts.length) :
    c.text = c.inFront i ++ weave (c.gaps.drop i) (c.texts.drop i) := by
  unfold inFront
  rw [← weave_append (length_take_gaps hi), List.take_append_drop, List.take_append_drop]
  rfl

theorem drop_gaps (hgap : c.gaps[i]? = some gap) :
    c.gaps.drop i = gap :: c.gaps.drop (i + 1) := by
  obtain ⟨hi, rfl⟩ := List.getElem?_eq_some_iff.mp hgap
  exact List.drop_eq_getElem_cons hi

theorem drop_texts (htext : c.texts[i]? = some text) :
    c.texts.drop i = text :: c.texts.drop (i + 1) := by
  obtain ⟨hi, rfl⟩ := List.getElem?_eq_some_iff.mp htext
  exact List.drop_eq_getElem_cons hi

/-- A gap in front of a token, in its place in the text. -/
theorem exists_text_eq (hgap : c.gaps[i]? = some gap) (htext : c.texts[i]? = some text) :
    ∃ after, c.text = c.inFront i ++ (gap ++ (text ++ after)) := by
  obtain ⟨hi, -⟩ := List.getElem?_eq_some_iff.mp htext
  refine ⟨weave (c.gaps.drop (i + 1)) (c.texts.drop (i + 1)), ?_⟩
  rw [text_eq (Nat.le_of_lt hi), drop_gaps hgap, drop_texts htext, weave_cons_cons]

/-- The last gap, in its place in the text. -/
theorem text_eq_last (hgap : c.gaps[c.texts.length]? = some gap) :
    c.text = c.inFront c.texts.length ++ gap := by
  have hlast : c.gaps.drop (c.texts.length + 1) = [] := by
    rw [← c.length_gaps, List.drop_length]
  rw [text_eq (Nat.le_refl _), drop_gaps hgap, hlast, List.drop_length, weave_singleton]

theorem inFront_zero (c : Cut) : c.inFront 0 = [] := rfl

/-- A complaint is about a piece of the text, which stands where the complaint says. -/
theorem standsAt_of_complaint? {m : Malformed} (h : c.complaint? i = some m) :
    Text.StandsAt c.text m.position m.fragment.toList := by
  obtain ⟨gap, hgap, h⟩ := Option.bind_eq_some_iff.mp h
  by_cases hempty : gap = []
  · -- the token behind an empty gap stands where the gap does
    subst hempty
    rw [if_pos rfl] at h
    split at h
    · obtain ⟨text, htext, rfl⟩ := Option.map_eq_some_iff.mp h
      obtain ⟨after, hafter⟩ := exists_text_eq hgap htext
      rw [String.toList_ofList]
      exact ⟨c.inFront i, after, hafter, rfl⟩
    · cases h
  · rw [if_neg hempty] at h
    split at h
    · cases h
    · obtain rfl := Option.some.inj h
      rw [String.toList_ofList]
      cases htext : c.texts[i]? with
      | some text =>
        obtain ⟨after, hafter⟩ := exists_text_eq hgap htext
        exact ⟨c.inFront i, text ++ after, hafter, rfl⟩
      | none =>
        have hi : i = c.texts.length := by
          have hlt := (List.getElem?_eq_some_iff.mp hgap).1
          have hle := List.getElem?_eq_none_iff.mp htext
          have hgaps := c.length_gaps
          omega
        subst hi
        refine ⟨c.inFront c.texts.length, [], ?_, rfl⟩
        rw [List.append_nil]
        exact text_eq_last hgap

end Cut

/-! ### The cut of a scan -/

/-- The stretches that reading looks at around some hits: from the end of each hit, or from a place
    in front of them, to the start of the next hit or the end of the text. -/
def gapSpans (length : Nat) : Nat → List Hit → List (Nat × Nat)
  | cursor, [] => [(cursor, length)]
  | cursor, hit :: hits => (cursor, hit.start) :: gapSpans length hit.stop hits

/-- A cut around some hits, in a text that starts at an offset: every hit starts behind its gap and
    ends in front of the next one. -/
structure Cut.Fits (c : Cut) (offset : Nat) (hits : List Hit) : Prop where
  texts_eq : c.texts = hits.map fun hit => hit.text.toList
  start_eq : ∀ i hit gap, hits[i]? = some hit → c.gaps[i]? = some gap →
    hit.start = offset + Text.byteLength (c.inFront i) + Text.byteLength gap
  stop_eq : ∀ i hit, hits[i]? = some hit → hit.stop = offset + Text.byteLength (c.inFront (i + 1))

/-- One more hit with a gap in front of it. -/
theorem Cut.Fits.push {c : Cut} {offset : Nat} {gap read : List Char} {hits : List Hit}
    (h : c.Fits (offset + Text.byteLength gap + Text.byteLength read) hits) (rule : Rule) :
    (c.push gap read).Fits offset
      (⟨String.ofList read, offset + Text.byteLength gap,
        offset + Text.byteLength gap + Text.byteLength read, rule⟩ :: hits) where
  texts_eq := by
    rw [Cut.texts_push, h.texts_eq, List.map_cons, String.toList_ofList]
  start_eq i hit gap' hhit hgap := by
    cases i with
    | zero =>
      obtain rfl := Option.some.inj hhit
      obtain rfl := Option.some.inj hgap
      rfl
    | succ i =>
      have hstart := h.start_eq i hit gap' hhit hgap
      rw [hstart, Cut.inFront_push, Text.byteLength_append, Text.byteLength_append]
      omega
  stop_eq i hit hhit := by
    rw [Cut.inFront_push, Text.byteLength_append, Text.byteLength_append]
    cases i with
    | zero =>
      obtain rfl := Option.some.inj hhit
      rw [Cut.inFront_zero, Text.byteLength_nil]
      exact Nat.add_assoc ..
    | succ i =>
      have hstop := h.stop_eq i hit hhit
      omega

/-- Hits that stand one behind the other cut the text, and the gaps of the cut are what the text
    holds between them. -/
theorem exists_cut_of_along {before rest : List Char} {hits : List Hit}
    (h : Hit.Along (Text.byteLength before) rest hits) :
    ∃ c : Cut, c.text = rest ∧ c.Fits (Text.byteLength before) hits ∧
      (gapSpans (Text.byteLength (before ++ rest)) (Text.byteLength before) hits).map
        (fun span => Text.slice? (before ++ rest) span.1 span.2) = c.gaps.map some := by
  generalize hoffset : Text.byteLength before = offset at h
  -- by induction on the hits: what has been read moves to the front
  induction h generalizing before with
  | nil offset rest =>
    subst hoffset
    refine ⟨⟨[rest], [], rfl⟩, weave_singleton rest, ⟨rfl, nofun, nofun⟩, ?_⟩
    have hslice := Text.slice?_append before rest []
    rw [List.append_nil] at hslice
    simpa [gapSpans] using hslice
  | @cons offset gap read after hits rule _ ih =>
    subst hoffset
    have hread : Text.byteLength (before ++ gap ++ read) =
        Text.byteLength before + Text.byteLength gap + Text.byteLength read := by
      rw [Text.byteLength_append, Text.byteLength_append]
    obtain ⟨c, rfl, hfits, hslices⟩ := ih hread
    refine ⟨c.push gap read, rfl, hfits.push rule, ?_⟩
    have hcut : before ++ (gap ++ (read ++ c.text)) = before ++ gap ++ read ++ c.text := by simp
    have hslice := Text.slice?_append before gap (read ++ c.text)
    rw [Text.byteLength_append, ← List.append_assoc, ← hcut] at hslice
    rw [← hcut] at hslices
    rw [gapSpans, List.map_cons, hslices, hslice]
    rfl

/-! ### Checks -/

/-- Where the token in front of a gap has ended. -/
def Cut.cursor (c : Cut) (i : Nat) : Option Nat :=
  if i = 0 then none else some (Text.byteLength (c.inFront i))

theorem Cut.getD_cursor (c : Cut) (i : Nat) :
    (c.cursor i).getD 0 = Text.byteLength (c.inFront i) := by
  unfold cursor
  by_cases hi : i = 0
  · rw [if_pos hi, hi]
    rfl
  · rw [if_neg hi]
    rfl

section

variable {c : Cut} {i : Nat} {gap : List Char} {hit : Hit}

/-- At a gap that is not empty there is a complaint unless it is a single space. -/
theorem Cut.complaint?_of_ne_nil (hgap : c.gaps[i]? = some gap) (hne : gap ≠ []) :
    c.complaint? i = if gap = [' '] then none
      else some ⟨Text.byteLength (c.inFront i), String.ofList gap⟩ := by
  unfold complaint?
  simp [hgap, hne]

/-- At an empty gap there is no complaint unless it is between two tokens. -/
theorem Cut.complaint?_of_nil (hgap : c.gaps[i]? = some []) (hends : i = 0 ∨ c.texts[i]? = none) :
    c.complaint? i = none := by
  unfold complaint?
  rcases hends with rfl | hnone
  · simp [hgap]
  · simp [hgap, hnone]

/-- A token that touches the one in front of it is complained about. -/
theorem Cut.complaint?_of_touching {text : List Char} (hgap : c.gaps[i]? = some [])
    (hi : i ≠ 0) (htext : c.texts[i]? = some text) :
    c.complaint? i = some ⟨Text.byteLength (c.inFront i), String.ofList text⟩ := by
  unfold complaint?
  simp [hgap, htext, Nat.pos_of_ne_zero hi]

theorem outcome_checkGap_lenient (subject : List Char) (start stop : Nat) :
    (checkGap .lenient subject start stop).outcome = .ok () := by
  unfold checkGap
  dsimp only
  split <;> rfl

theorem outcome_checkBefore_lenient (subject : List Char) (previous : Option Nat) (hit : Hit) :
    (checkBefore .lenient subject previous hit).outcome = .ok () := by
  unfold checkBefore
  split
  · rfl
  · exact outcome_checkGap_lenient subject _ _

/-- The check of a gap complains about the gap. -/
theorem events_checkGap_lenient {stop : Nat} (hgap : c.gaps[i]? = some gap)
    (hends : gap = [] → i = 0 ∨ c.texts[i]? = none)
    (hslice : Text.slice c.text (Text.byteLength (c.inFront i)) stop = gap) :
    (checkGap .lenient c.text ((c.cursor i).getD 0) stop).events =
      (c.complaint? i).toList.map .ignored := by
  unfold checkGap
  rw [c.getD_cursor, hslice]
  by_cases hempty : gap = []
  · subst hempty
    rw [Cut.complaint?_of_nil hgap (hends rfl)]
    rfl
  · rw [Cut.complaint?_of_ne_nil hgap hempty]
    by_cases hspace : gap = [' ']
    · simp [hspace]
    · simp [hempty, hspace, misplaced]

/-- What is checked in front of a hit is the gap there, and whether the hit touches another. -/
theorem events_checkBefore_lenient (hgap : c.gaps[i]? = some gap)
    (htext : c.texts[i]? = some hit.text.toList)
    (hstart : hit.start = Text.byteLength (c.inFront i) + Text.byteLength gap) :
    (checkBefore .lenient c.text (c.cursor i) hit).events =
      (c.complaint? i).toList.map .ignored := by
  obtain ⟨after, hafter⟩ := Cut.exists_text_eq hgap htext
  have hslice : Text.slice c.text (Text.byteLength (c.inFront i)) hit.start = gap := by
    rw [hafter, hstart, Text.slice_append]
  unfold checkBefore
  by_cases htouches : c.cursor i = some hit.start
  · -- the hit starts where the one in front of it has ended
    rw [if_pos htouches]
    have hi : i ≠ 0 := by
      rintro rfl
      cases htouches
    have hcursor := c.getD_cursor i
    rw [htouches, Option.getD_some, hstart] at hcursor
    have hempty : gap = [] := Text.eq_nil_of_byteLength_eq_zero (by omega)
    subst hempty
    rw [Cut.complaint?_of_touching hgap hi htext, String.ofList_toList, hstart]
    rfl
  · rw [if_neg htouches]
    apply events_checkGap_lenient hgap ?_ hslice
    rintro rfl
    left
    by_contra hi
    apply htouches
    unfold Cut.cursor
    rw [if_neg hi, hstart]
    rfl

end

/-! ### Reading -/

section

variable {mode : Mode} {subject : List Char} {previous : Option Nat} {hit : Hit} {hits : List Hit}

/-- A hit without a kind ends the reading. -/
theorem tokensOf_cons_of_none (hkind : hit.rule.kind? = none) :
    tokensOf mode subject previous (hit :: hits) =
      .fail (.unsupported ⟨hit.text, hit.rule⟩) := by
  rw [tokensOf, hkind]

/-- Lenient reading goes on behind a hit that has a kind. -/
theorem outcome_tokensOf_lenient_cons {kind : Kind} (hkind : hit.rule.kind? = some kind) :
    (tokensOf .lenient subject previous (hit :: hits)).outcome =
      (tokensOf .lenient subject (some hit.stop) hits).outcome.map (⟨hit.text, kind⟩ :: ·) := by
  rw [tokensOf, hkind]
  simp only [Journal.outcome_bind, outcome_checkBefore_lenient, Except.bind]
  cases (tokensOf .lenient subject (some hit.stop) hits).outcome <;> rfl

theorem events_tokensOf_lenient_cons {kind : Kind} (hkind : hit.rule.kind? = some kind) :
    (tokensOf .lenient subject previous (hit :: hits)).events =
      (checkBefore .lenient subject previous hit).events ++
        (tokensOf .lenient subject (some hit.stop) hits).events := by
  rw [tokensOf, hkind]
  simp only
  rw [Journal.bind_of_ok (outcome_checkBefore_lenient subject previous hit),
    Journal.events_bind_pure]

/-- The token of a hit: its text, and the kind of its rule. -/
def IsTokenOf (token : Token) (hit : Hit) : Prop :=
  token.text = hit.text ∧ hit.rule.kind? = some token.kind

/-- If all hits have kinds, lenient reading makes one token of each. -/
theorem exists_tokens_of_lenient (subject : List Char) (previous : Option Nat)
    (hkinds : ∀ hit ∈ hits, hit.rule ≠ .pseudoClass) :
    ∃ tokens, (tokensOf .lenient subject previous hits).outcome = .ok tokens ∧
      List.Forall₂ IsTokenOf tokens hits := by
  induction hits generalizing previous with
  | nil =>
    refine ⟨[], ?_, .nil⟩
    rw [tokensOf, Journal.bind_of_ok (outcome_checkGap_lenient subject _ _)]
    rfl
  | cons hit hits ih =>
    obtain ⟨hhit, hhits⟩ := List.forall_mem_cons.mp hkinds
    obtain ⟨kind, hkind⟩ := Option.ne_none_iff_exists'.mp (mt Rule.kind?_eq_none_iff.mp hhit)
    obtain ⟨tokens, hok, htokens⟩ := ih (some hit.stop) hhits
    refine ⟨⟨hit.text, kind⟩ :: tokens, ?_, .cons ⟨rfl, hkind⟩ htokens⟩
    rw [outcome_tokensOf_lenient_cons hkind, hok]
    rfl

/-- The first hit without a kind is what lenient reading fails on. -/
theorem outcome_tokensOf_lenient_of_find? (subject : List Char) (previous : Option Nat)
    (hfind : (hits.find? fun hit => hit.rule = .pseudoClass) = some hit) :
    (tokensOf .lenient subject previous hits).outcome =
      .error (.unsupported ⟨hit.text, .pseudoClass⟩) := by
  induction hits generalizing previous with
  | nil => cases hfind
  | cons first hits ih =>
    cases hkind : first.rule.kind? with
    | none =>
      have hrule := Rule.kind?_eq_none_iff.mp hkind
      rw [List.find?_cons_of_pos (by simpa using hrule)] at hfind
      obtain rfl := Option.some.inj hfind
      rw [tokensOf_cons_of_none hkind, hrule]
      rfl
    | some kind =>
      have hrule := Rule.ne_pseudoClass_of_kind? hkind
      rw [List.find?_cons_of_neg (by simpa using hrule)] at hfind
      rw [outcome_tokensOf_lenient_cons hkind, ih (some first.stop) hfind]
      rfl

end

/-- How many gaps are looked at around some hits: all of them, unless a hit without a kind ends the
    reading. -/
def gapsRead : List Hit → Nat
  | [] => 1
  | hit :: hits => if hit.rule = .pseudoClass then 0 else gapsRead hits + 1

theorem gapsRead_of_kinds {hits : List Hit} (hkinds : ∀ hit ∈ hits, hit.rule ≠ .pseudoClass) :
    gapsRead hits = hits.length + 1 := by
  induction hits with
  | nil => rfl
  | cons hit hits ih =>
    obtain ⟨hhit, hhits⟩ := List.forall_mem_cons.mp hkinds
    rw [gapsRead, if_neg hhit, ih hhits]
    rfl

theorem gapsRead_cons_of_some {hit : Hit} {kind : Kind} (hkind : hit.rule.kind? = some kind)
    (hits : List Hit) : gapsRead (hit :: hits) = gapsRead hits + 1 :=
  if_neg (Rule.ne_pseudoClass_of_kind? hkind)

/-- The complaint about the first of some gaps, and the complaints about the others. -/
theorem filterMap_complaint?_range' (c : Cut) (k n : Nat) :
    (List.range' k (n + 1)).filterMap c.complaint? =
      (c.complaint? k).toList ++ (List.range' (k + 1) n).filterMap c.complaint? := by
  rw [List.range'_succ]
  cases hcomplaint : c.complaint? k with
  | none => exact List.filterMap_cons_none hcomplaint
  | some m => exact List.filterMap_cons_some hcomplaint

section

variable {c : Cut} {hits : List Hit} (hfits : c.Fits 0 hits)

include hfits

theorem Cut.Fits.length_texts : c.texts.length = hits.length := by
  rw [hfits.texts_eq, List.length_map]

theorem Cut.Fits.exists_gap {k : Nat} (hk : k ≤ hits.length) : ∃ gap, c.gaps[k]? = some gap := by
  have hlt : k < c.gaps.length := by
    rw [c.length_gaps, hfits.length_texts]
    exact Nat.lt_succ_of_le hk
  exact ⟨_, List.getElem?_eq_getElem hlt⟩

/-- Where a hit has ended is the cursor behind it. -/
theorem Cut.Fits.cursor_succ {k : Nat} {hit : Hit} (hhit : hits[k]? = some hit) :
    c.cursor (k + 1) = some hit.stop := by
  rw [hfits.stop_eq k hit hhit, Nat.zero_add]
  exact if_neg (Nat.succ_ne_zero k)

/-- What is left behind all hits is the last gap. -/
theorem events_tokensOf_lenient_nil :
    (tokensOf .lenient c.text (c.cursor hits.length) []).events =
      (c.complaint? hits.length).toList.map .ignored := by
  obtain ⟨gap, hgap⟩ := hfits.exists_gap (Nat.le_refl _)
  rw [← hfits.length_texts] at hgap ⊢
  have hslice : Text.slice c.text (Text.byteLength (c.inFront c.texts.length))
      (Text.byteLength c.text) = gap := by
    have hlast := Text.slice_append (c.inFront c.texts.length) gap []
    rw [List.append_nil, ← Text.byteLength_append] at hlast
    rwa [Cut.text_eq_last hgap]
  have hnone : c.texts[c.texts.length]? = none := List.getElem?_eq_none (Nat.le_refl _)
  rw [tokensOf, Journal.events_bind_pure]
  exact events_checkGap_lenient hgap (fun _ => .inr hnone) hslice

/-- Along the hits lenient reading complains about one gap after another. -/
theorem events_tokensOf_lenient {k : Nat} (hk : k ≤ hits.length) :
    (tokensOf .lenient c.text (c.cursor k) (hits.drop k)).events =
      ((List.range' k (gapsRead (hits.drop k))).filterMap c.complaint?).map .ignored := by
  -- by induction on the hits that are left
  induction hleft : hits.drop k generalizing k with
  | nil =>
    have hlast : k = hits.length := Nat.le_antisymm hk (List.drop_eq_nil_iff.mp hleft)
    rw [hlast, events_tokensOf_lenient_nil hfits, gapsRead, filterMap_complaint?_range']
    simp
  | cons hit more ih =>
    have hhit : hits[k]? = some hit := by
      rw [← List.head?_drop, hleft]
      rfl
    have hmore : hits.drop (k + 1) = more := by
      rw [← List.drop_drop, hleft]
      rfl
    have hlt : k < hits.length := (List.getElem?_eq_some_iff.mp hhit).1
    cases hkind : hit.rule.kind? with
    | none =>
      -- nothing is looked at in front of a hit without a kind
      have hrule := Rule.kind?_eq_none_iff.mp hkind
      rw [tokensOf_cons_of_none hkind, gapsRead, if_pos hrule]
      rfl
    | some kind =>
      obtain ⟨gap, hgap⟩ := hfits.exists_gap hk
      have htext : c.texts[k]? = some hit.text.toList := by
        rw [hfits.texts_eq, List.getElem?_map, hhit]
        rfl
      have hstart := hfits.start_eq k hit gap hhit hgap
      rw [Nat.zero_add] at hstart
      have hbefore := events_checkBefore_lenient hgap htext hstart
      have hbehind := ih hlt hmore
      rw [hfits.cursor_succ hhit] at hbehind
      rw [events_tokensOf_lenient_cons hkind, hbefore, hbehind, gapsRead_cons_of_some hkind,
        filterMap_complaint?_range', List.map_append]

end

/-! ### Selectors -/

/-- Nothing but its hits gives a selector warnings. -/
theorem warnings_tokenize_eq (g : Grammar) (mode : Mode) (selector : String) :
    (tokenize g mode selector).warnings =
      (tokensOf mode (normalize selector).toList none
        (g.scanner.scan (normalize selector))).warnings := by
  unfold tokenize
  cases houtcome : (tokensOf mode (normalize selector).toList none
      (g.scanner.scan (normalize selector))).outcome with
  | error fault => rw [Journal.warnings_bind_of_error houtcome]
  | ok tokens =>
    rw [Journal.warnings_bind_of_ok houtcome]
    exact List.append_nil _

theorem filter_level_map_ignored (ms : List Malformed) :
    (ms.map Event.ignored).filter (fun e => e.level = .warn) = ms.map Event.ignored := by
  apply List.filter_eq_self.mpr
  intro e he
  obtain ⟨m, -, rfl⟩ := List.mem_map.mp he
  rfl

/-- The warnings of a selector are the complaints at the gaps that are looked at. -/
theorem warnings_tokenize_lenient {g : Grammar} {selector : String} {c : Cut}
    (htext : c.text = (normalize selector).toList)
    (hfits : c.Fits 0 (g.scanner.scan (normalize selector))) :
    (tokenize g .lenient selector).warnings =
      ((List.range (gapsRead (g.scanner.scan (normalize selector)))).filterMap
        c.complaint?).map .ignored := by
  have hevents := events_tokensOf_lenient hfits (Nat.zero_le _)
  have hcursor : c.cursor 0 = none := rfl
  rw [hcursor, htext, List.drop_zero] at hevents
  rw [warnings_tokenize_eq, Journal.warnings, hevents, filter_level_map_ignored,
    List.range_eq_range']

/-- **Main theorem**: the hits of a scanner cut the normal form of a selector into tokens and gaps,
    and every stretch that reading looks at around the hits is a gap of the cut. If every hit has a
    kind, lenient reading makes a token of each of them and warns of exactly what there is to
    complain about at the gaps; otherwise it fails on the first hit without a kind. Whatever it
    warns of stands in the normal form where the warning says. -/
theorem tokenize_lenient_accounts (g : Grammar) (selector : String) :
    ∃ c : Cut,
      c.text = (normalize selector).toList ∧
      c.texts = (g.scanner.scan (normalize selector)).map (fun hit => hit.text.toList) ∧
      (gapSpans (Text.byteLength (normalize selector).toList) 0
          (g.scanner.scan (normalize selector))).map
        (fun span => Text.slice? (normalize selector).toList span.1 span.2) = c.gaps.map some ∧
      ((∀ hit ∈ g.scanner.scan (normalize selector), hit.rule ≠ .pseudoClass) →
        (∃ tokens, (tokenize g .lenient selector).outcome = .ok tokens ∧
          List.Forall₂ IsTokenOf tokens (g.scanner.scan (normalize selector))) ∧
        (tokenize g .lenient selector).warnings = c.complaints.map .ignored) ∧
      (∀ hit, (g.scanner.scan (normalize selector)).find? (fun hit => hit.rule = .pseudoClass) =
          some hit →
        (tokenize g .lenient selector).outcome =
          .error (.unsupported ⟨hit.text, .pseudoClass⟩)) ∧
      ∀ m, .ignored m ∈ (tokenize g .lenient selector).warnings →
        Text.StandsAt (normalize selector).toList m.position m.fragment.toList := by
  have halong := g.scanner.along_scan (normalize selector)
  obtain ⟨c, htext, hfits, hslices⟩ := @exists_cut_of_along [] _ _ halong
  rw [List.nil_append, Text.byteLength_nil] at hslices
  have hwarnings := warnings_tokenize_lenient htext hfits
  refine ⟨c, htext, hfits.texts_eq, hslices, ?_, ?_, ?_⟩
  · intro hkinds
    obtain ⟨tokens, hok, htokens⟩ :=
      exists_tokens_of_lenient (normalize selector).toList none hkinds
    refine ⟨⟨tokens, ?_, htokens⟩, ?_⟩
    · rw [outcome_tokenize_eq, hok]
    · rw [hwarnings, gapsRead_of_kinds hkinds, ← hfits.length_texts, ← c.length_gaps]
      rfl
  · intro hit hfind
    rw [outcome_tokenize_eq, outcome_tokensOf_lenient_of_find? _ none hfind]
  · intro m hm
    rw [hwarnings] at hm
    obtain ⟨m', hm', heq⟩ := List.mem_map.mp hm
    obtain rfl := Event.ignored.inj heq
    obtain ⟨i, -, hcomplaint⟩ := List.mem_filterMap.mp hm'
    rw [← htext]
    exact Cut.standsAt_of_complaint? hcomplaint

/-- Names that may be empty, a token that touches the one in front of it, and a letter that only the
    part of a rule outside of its group reads. -/
theorem tokenize_lenient_accounts_looseTemplates :
    ∃ g, (Grammar.build .unlimited looseTemplates).outcome = .ok g ∧
      (∀ hit ∈ g.scanner.scan (normalize " é> ab#c#d y z"), hit.rule ≠ .pseudoClass) ∧
      (tokenize g .lenient " é> ab#c#d y z").warnings =
        [.ignored ⟨0, "é"⟩, .ignored ⟨2, ">"⟩, .ignored ⟨8, "#d"⟩, .ignored ⟨10, " y "⟩] ∧
      ∃ c : Cut, c.text = "é> ab#c#d y z".toList ∧
        (tokenize g .lenient " é> ab#c#d y z").warnings = c.complaints.map .ignored := by
  have hread : ((Grammar.build .unlimited looseTemplates).outcome.toOption.map fun g =>
      ((g.scanner.scan (normalize " é> ab#c#d y z")).all fun hit => hit.rule ≠ .pseudoClass,
        (tokenize g .lenient " é> ab#c#d y z").warnings)) =
      some (true, [.ignored ⟨0, "é"⟩, .ignored ⟨2, ">"⟩, .ignored ⟨8, "#d"⟩,
        .ignored ⟨10, " y "⟩]) := by decide +kernel
  obtain ⟨g, hbuild, hboth⟩ := Option.map_eq_some_iff.mp hread
  obtain ⟨hall, hwarnings⟩ := Prod.mk.inj hboth
  have hkinds : ∀ hit ∈ g.scanner.scan (normalize " é> ab#c#d y z"),
      hit.rule ≠ .pseudoClass := by simpa using hall
  obtain ⟨c, htext, _, _, haccount, _, _⟩ := tokenize_lenient_accounts g " é> ab#c#d y z"
  have hnormal : normalize " é> ab#c#d y z" = "é> ab#c#d y z" := by decide +kernel
  rw [hnormal] at htext
  exact ⟨g, Journal.eq_ok_of_toOption hbuild, hkinds, hwarnings, c, htext, (haccount hkinds).2⟩

end TreeQuery.Selector
