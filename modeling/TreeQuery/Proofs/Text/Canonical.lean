import Mathlib.Data.List.Chain
import TreeQuery.Proofs.Text.Level

/-! # Canonical forms — the normal form stands for the words

    A text is divided by its blanks into maximal runs of other characters. The
    normal form of a text is made of these runs alone, and the runs can be read off
    it again, so it is the one text that stands for all texts with the same runs:

    * **Runs**: every text has exactly one list of them, and that is its words.
    * **Separators**: nothing but five characters divides a text.
    * **Contents**: all characters but the blanks are kept, in order.
    * **Shape**: a normal form has single spaces inside and no other blanks, and
      the texts of this shape are their own normal forms.
-/

namespace TreeQuery.Text

/-! ### Runs -/

/-- The maximal runs of characters that are no blanks, from left to right. In front of a run there
    are blanks at most, and behind it is a blank or the end of the text. -/
inductive HasRuns : List Char → List (List Char) → Prop where
  | none {blanks : List Char} : AllBlank blanks → HasRuns blanks []
  | run {blanks w rest : List Char} {ws : List (List Char)} : AllBlank blanks → w ≠ [] →
      NoBlank w → (∀ c, rest.head? = some c → isBlank c = true) → HasRuns rest ws →
      HasRuns (blanks ++ (w ++ rest)) (w :: ws)

theorem words_allBlank {blanks : List Char} (h : AllBlank blanks) : words blanks = [] := by
  have hwords := words_allBlank_append h []
  rwa [List.append_nil] at hwords

theorem allBlank_cons {c : Char} (hc : isBlank c = true) {blanks : List Char}
    (h : AllBlank blanks) : AllBlank (c :: blanks) :=
  List.forall_mem_cons.mpr ⟨hc, h⟩

theorem noBlank_cons {c : Char} (hc : isBlank c = false) {w : List Char} (h : NoBlank w) :
    NoBlank (c :: w) :=
  List.forall_mem_cons.mpr ⟨hc, h⟩

/-- A run between blanks, or between a blank and an end of the text, is a word. -/
theorem words_surrounded {front w back : List Char} (hne : w ≠ []) (hw : NoBlank w)
    (hfront : ∀ c, front.getLast? = some c → isBlank c = true)
    (hback : ∀ c, back.head? = some c → isBlank c = true) :
    words (front ++ (w ++ back)) = words front ++ w :: words back := by
  have hrun : words (w ++ back) = w :: words back := by
    cases back with
    | nil =>
      rw [List.append_nil, words_of_noBlank hne hw]
      rfl
    | cons b back =>
      have hb : isBlank b = true := hback b rfl
      rw [words_append_blank hb, words_blank_cons back hb, words_of_noBlank hne hw]
      rfl
  rcases List.eq_nil_or_concat front with rfl | ⟨front, b, rfl⟩
  · exact hrun
  · have hb : isBlank b = true := hfront b (by simp)
    rw [List.concat_eq_append, List.append_assoc, List.singleton_append, words_append_blank hb,
      words_append_blank hb, hrun, words_nil, List.append_nil]

/-- The runs of a text are its words. -/
theorem HasRuns.words_eq {cs : List Char} {ws : List (List Char)} (h : HasRuns cs ws) :
    words cs = ws := by
  induction h with
  | none hblanks => exact words_allBlank hblanks
  | @run blanks w rest ws hblanks hne hw hrest _ ih =>
    have hfront : ∀ c, blanks.getLast? = some c → isBlank c = true := by
      intro c hc
      exact hblanks c (List.mem_of_getLast? hc)
    rw [words_surrounded hne hw hfront hrest, words_allBlank hblanks, ih, List.nil_append]

theorem HasRuns.cons_blank {c : Char} (hc : isBlank c = true) {cs : List Char}
    {ws : List (List Char)} (h : HasRuns cs ws) : HasRuns (c :: cs) ws := by
  cases h with
  | none hblanks => exact .none (allBlank_cons hc hblanks)
  | run hblanks hne hw hrest hothers =>
    exact .run (allBlank_cons hc hblanks) hne hw hrest hothers

/-- A run may stand at the start of a text. -/
theorem HasRuns.at_start {w rest : List Char} {ws : List (List Char)} (hne : w ≠ [])
    (hw : NoBlank w) (hrest : ∀ c, rest.head? = some c → isBlank c = true)
    (h : HasRuns rest ws) : HasRuns (w ++ rest) (w :: ws) := by
  show HasRuns ([] ++ (w ++ rest)) (w :: ws)
  exact .run allBlank_nil hne hw hrest h

/-- A character that is no blank makes the first run longer if it touches it, and otherwise is a
    run of its own. -/
theorem HasRuns.exists_cons {c : Char} (hc : isBlank c = false) {cs : List Char}
    {ws : List (List Char)} (h : HasRuns cs ws) : ∃ ws', HasRuns (c :: cs) ws' := by
  have halone : NoBlank [c] := noBlank_cons hc nofun
  have hne : [c] ≠ [] := List.cons_ne_nil c []
  cases h with
  | none hblanks =>
    have hend : ∀ b, cs.head? = some b → isBlank b = true := by
      intro b hb
      exact hblanks b (List.mem_of_head? hb)
    exact ⟨[[c]], .at_start hne halone hend (.none hblanks)⟩
  | @run blanks w rest ws hblanks hw hword hrest hothers =>
    cases blanks with
    | nil =>
      exact ⟨(c :: w) :: ws, .at_start (List.cons_ne_nil c w) (noBlank_cons hc hword) hrest hothers⟩
    | cons b blanks =>
      have hend : ∀ d, (b :: blanks ++ (w ++ rest)).head? = some d → isBlank d = true := by
        intro d hd
        rw [← Option.some.inj hd]
        exact hblanks b List.mem_cons_self
      exact ⟨[c] :: w :: ws, .at_start hne halone hend (.run hblanks hw hword hrest hothers)⟩

theorem exists_hasRuns (cs : List Char) : ∃ ws, HasRuns cs ws := by
  induction cs with
  | nil => exact ⟨[], .none allBlank_nil⟩
  | cons c cs ih =>
    obtain ⟨ws, hws⟩ := ih
    by_cases hc : isBlank c = true
    · exact ⟨ws, hws.cons_blank hc⟩
    · exact hws.exists_cons (by simpa using hc)

/-- **Runs**: the words of a text are its runs, and it has no other list of them. -/
theorem hasRuns_iff {cs : List Char} {ws : List (List Char)} : HasRuns cs ws ↔ words cs = ws := by
  constructor
  · exact HasRuns.words_eq
  · rintro rfl
    obtain ⟨ws, hws⟩ := exists_hasRuns cs
    rwa [hws.words_eq]

/-! ### Separators -/

/-- The five separators. No other character is one, be it a vertical tab or a no-break space. -/
def separators : List Char := [' ', '\t', '\n', '\x0c', '\r']

theorem isBlank_iff_mem {c : Char} : isBlank c = true ↔ c ∈ separators := by
  simp [isBlank, separators, or_assoc]

theorem noBlank_iff {cs : List Char} : NoBlank cs ↔ ∀ c ∈ separators, c ∉ cs := by
  constructor
  · intro h c hc hmem
    have hblank := isBlank_iff_mem.mpr hc
    rw [h c hmem] at hblank
    cases hblank
  · intro h c hmem
    by_contra hblank
    exact h c (isBlank_iff_mem.mp (by simpa using hblank)) hmem

/-- Every text starts with a piece without blanks up to its first blank or its end. -/
theorem exists_noBlank_append (cs : List Char) :
    ∃ w rest, cs = w ++ rest ∧ NoBlank w ∧ ∀ c, rest.head? = some c → isBlank c = true := by
  induction cs with
  | nil => exact ⟨[], [], rfl, nofun, nofun⟩
  | cons c cs ih =>
    by_cases hc : isBlank c = true
    · refine ⟨[], c :: cs, rfl, nofun, ?_⟩
      intro d hd
      rwa [← Option.some.inj hd]
    · obtain ⟨w, rest, rfl, hw, hrest⟩ := ih
      exact ⟨c :: w, rest, rfl, noBlank_cons (by simpa using hc) hw, hrest⟩

theorem NoBlank.append {v w : List Char} (hv : NoBlank v) (hw : NoBlank w) : NoBlank (v ++ w) :=
  List.forall_mem_append.mpr ⟨hv, hw⟩

theorem NoBlank.reverse {w : List Char} (hw : NoBlank w) : NoBlank w.reverse :=
  fun c hc => hw c (List.mem_reverse.mp hc)

/-- A piece of a text without separators in it is not divided. -/
theorem exists_word_of_infix {cs piece : List Char} (h : piece <:+: cs) (hne : piece ≠ [])
    (hpiece : NoBlank piece) : ∃ w ∈ words cs, piece <:+: w := by
  -- the piece is made longer at both ends, up to a blank or an end of the text
  obtain ⟨before, after, rfl⟩ := h
  obtain ⟨u, front, hbefore, hu, hfront⟩ := exists_noBlank_append before.reverse
  obtain ⟨v, back, rfl, hv, hback⟩ := exists_noBlank_append after
  obtain rfl : before = front.reverse ++ u.reverse := by
    rw [← List.reverse_append, ← hbefore, List.reverse_reverse]
  have hrun : NoBlank (u.reverse ++ piece ++ v) := (hu.reverse.append hpiece).append hv
  have hsome : u.reverse ++ piece ++ v ≠ [] := by simp [hne]
  have hfront' : ∀ c, front.reverse.getLast? = some c → isBlank c = true := by
    simpa using hfront
  have hwords := words_surrounded hsome hrun hfront' hback
  have htext : front.reverse ++ u.reverse ++ piece ++ (v ++ back) =
      front.reverse ++ (u.reverse ++ piece ++ v ++ back) := by
    simp
  rw [htext, hwords]
  exact ⟨u.reverse ++ piece ++ v, by simp, u.reverse, v, rfl⟩

/-! ### Contents -/

theorem flatten_pieces (cs : List Char) :
    (pieces cs).flatten = cs.filter fun c => !isBlank c := by
  induction cs with
  | nil => rfl
  | cons c cs ih =>
    obtain ⟨p, ps, hpieces⟩ := List.exists_cons_of_ne_nil (pieces_ne_nil cs)
    rw [hpieces] at ih
    by_cases hc : isBlank c = true
    · simp [pieces, hc, hpieces, ← ih]
    · simp [pieces, hc, hpieces, growFirst, ← ih]

/-- The words of a text hold all its characters but the blanks. -/
theorem flatten_words (cs : List Char) : (words cs).flatten = cs.filter fun c => !isBlank c := by
  unfold words
  rw [List.flatten_filter_not_isEmpty, flatten_pieces]

/-! ### Shape -/

/-- Words with single spaces between them are read as just these words. -/
theorem words_intercalate {ws : List (List Char)} (hne : ∀ w ∈ ws, w ≠ [])
    (hw : ∀ w ∈ ws, NoBlank w) : words ([' '].intercalate ws) = ws := by
  induction ws with
  | nil => rfl
  | cons w ws ih =>
    have hfirst : words w = [w] :=
      words_of_noBlank (hne w List.mem_cons_self) (hw w List.mem_cons_self)
    cases ws with
    | nil => rwa [List.intercalate_singleton]
    | cons v ws =>
      have hothers := ih (fun u hu => hne u (List.mem_cons_of_mem w hu))
        fun u hu => hw u (List.mem_cons_of_mem w hu)
      rw [List.intercalate_cons_cons, List.append_assoc, List.singleton_append,
        words_append_blank rfl, hfirst, hothers]
      rfl

@[simp] theorem words_normalForm (cs : List Char) : words (normalForm cs) = words cs :=
  words_intercalate (fun _ => ne_nil_of_mem_words) fun _ => noBlank_of_mem_words

@[simp] theorem normalForm_normalForm (cs : List Char) :
    normalForm (normalForm cs) = normalForm cs := by
  rw [normalForm, words_normalForm, ← normalForm]

theorem normalForm_inj {cs ds : List Char} :
    normalForm cs = normalForm ds ↔ words cs = words ds := by
  constructor
  · intro h
    rw [← words_normalForm cs, h, words_normalForm]
  · intro h
    rw [normalForm, h, ← normalForm]

/-- A text whose only blanks are single spaces inside. -/
structure IsNormal (cs : List Char) : Prop where
  eq_space : ∀ c ∈ cs, isBlank c = true → c = ' '
  head : cs.head? ≠ some ' '
  last : cs.getLast? ≠ some ' '
  /-- No two spaces stand in a row. -/
  apart : cs.IsChain fun c d => c = ' ' → d ≠ ' '

theorem eq_space_of_mem_normalForm {cs : List Char} {c : Char} (h : c ∈ normalForm cs)
    (hc : isBlank c = true) : c = ' ' := by
  unfold normalForm at h
  cases hwords : words cs with
  | nil =>
    rw [hwords] at h
    cases h
  | cons w ws =>
    -- a word has no blanks, so the character is one of the spaces between them
    have hword : ∀ v ∈ words cs, c ∉ v := by
      intro v hv hmem
      rw [noBlank_of_mem_words hv c hmem] at hc
      cases hc
    rw [hwords] at h hword
    rw [intercalate_space_cons, List.mem_append, List.mem_flatMap] at h
    rcases h with h | ⟨v, hv, h⟩
    · exact absurd h (hword w List.mem_cons_self)
    · rcases List.mem_cons.mp h with h | h
      · exact h
      · exact absurd h (hword v (List.mem_cons_of_mem w hv))

theorem flush_of_head?_ne_space {cs : List Char}
    (hspace : ∀ c ∈ cs, isBlank c = true → c = ' ') (hhead : cs.head? ≠ some ' ') : Flush cs := by
  intro c hc
  by_contra hblank
  have hc' : c = ' ' := hspace c (List.mem_of_head? hc) (by simpa using hblank)
  exact hhead (hc' ▸ hc)

/-- Levelling leaves no two spaces in a row, and behind a blank none at the start. -/
theorem isChain_levelFrom (behindBlank : Bool) (cs : List Char) :
    (levelFrom behindBlank cs).IsChain (fun c d => c = ' ' → d ≠ ' ') ∧
      (behindBlank = true → (levelFrom behindBlank cs).head? ≠ some ' ') := by
  induction cs generalizing behindBlank with
  | nil => simp [levelFrom]
  | cons c cs ih =>
    unfold levelFrom
    by_cases hc : isBlank c = true
    · rw [if_pos hc]
      obtain ⟨hchain, hhead⟩ := ih true
      cases behindBlank with
      | true => exact ⟨hchain, hhead⟩
      | false =>
        refine ⟨List.isChain_cons.mpr ⟨?_, hchain⟩, fun h => absurd h Bool.false_ne_true⟩
        intro d hd _ hspace
        exact hhead rfl (hspace ▸ hd)
    · rw [if_neg hc]
      have hne : c ≠ ' ' := by
        rintro rfl
        exact hc rfl
      obtain ⟨hchain, -⟩ := ih false
      refine ⟨List.isChain_cons.mpr ⟨fun _ _ hspace => absurd hspace hne, hchain⟩, fun _ => ?_⟩
      simpa using hne

/-- A text of single spaces and other characters is level already. -/
theorem levelFrom_eq_self {behindBlank : Bool} {cs : List Char}
    (hspace : ∀ c ∈ cs, isBlank c = true → c = ' ')
    (hchain : cs.IsChain fun c d => c = ' ' → d ≠ ' ')
    (hhead : behindBlank = true → cs.head? ≠ some ' ') : levelFrom behindBlank cs = cs := by
  induction cs generalizing behindBlank with
  | nil => rfl
  | cons c cs ih =>
    obtain ⟨hnext, hrest⟩ := List.isChain_cons.mp hchain
    have hspaces : ∀ d ∈ cs, isBlank d = true → d = ' ' := by
      intro d hd
      exact hspace d (List.mem_cons_of_mem c hd)
    unfold levelFrom
    by_cases hc : isBlank c = true
    · obtain rfl : c = ' ' := hspace c List.mem_cons_self hc
      have hfirst : ¬behindBlank = true := fun hbehind => hhead hbehind rfl
      have hafter : cs.head? ≠ some ' ' := fun hd => hnext ' ' hd rfl rfl
      rw [if_pos hc, if_neg hfirst, ih hspaces hrest fun _ => hafter]
    · have hrestLevel : levelFrom false cs = cs := ih hspaces hrest (absurd · Bool.false_ne_true)
      rw [if_neg hc, hrestLevel]

theorem isNormal_normalForm (cs : List Char) : IsNormal (normalForm cs) := by
  have hspace : ∀ c ∈ normalForm cs, isBlank c = true → c = ' ' := by
    intro c
    exact eq_space_of_mem_normalForm
  have hhead : (normalForm cs).head? ≠ some ' ' := by
    intro h
    obtain ⟨ds, hds⟩ := List.head?_eq_some_iff.mp h
    exact normalForm_ne_space_cons cs ds hds
  refine ⟨hspace, hhead, ?_, ?_⟩
  · intro h
    obtain ⟨ds, hds⟩ := List.getLast?_eq_some_iff.mp h
    exact normalForm_ne_append_space cs ds hds
  · -- a normal form is level, up to a space behind it
    obtain ⟨hchain, -⟩ := isChain_levelFrom false (normalForm cs)
    have hlevel := level_eq_or (flush_of_head?_ne_space hspace hhead)
    rw [normalForm_normalForm] at hlevel
    unfold level at hlevel
    rcases hlevel with hlevel | hlevel
    · rwa [hlevel] at hchain
    · rw [hlevel] at hchain
      exact hchain.left_of_append

theorem IsNormal.normalForm_eq {cs : List Char} (h : IsNormal cs) : normalForm cs = cs := by
  have hlevel : level cs = cs := levelFrom_eq_self h.eq_space h.apart nofun
  rcases level_eq_or (flush_of_head?_ne_space h.eq_space h.head) with heq | heq
  · rw [← heq, hlevel]
  · -- the text would end in a space
    refine absurd ?_ h.last
    rw [← hlevel, heq, List.getLast?_concat]

/-- **Shape**: the normal forms are the texts whose only blanks are single spaces inside. -/
theorem isNormal_iff {cs : List Char} : IsNormal cs ↔ normalForm cs = cs := by
  constructor
  · exact IsNormal.normalForm_eq
  · intro h
    rw [← h]
    exact isNormal_normalForm cs

end TreeQuery.Text
