import Mathlib.Data.List.Induction
import TreeQuery.Proofs.Text.Words

/-! # Levelling — every run of blanks made one space

    A text is levelled by making one space of every run of blanks. Unlike the normal
    form this keeps a blank at either end, and it is done from left to right with no
    regard to words. A text in front of which a blank stands is levelled to its normal
    form, perhaps with a space behind.
-/

namespace TreeQuery.Text

/-! ### Levelling -/

/-- A text with every run of blanks made one space, given whether a blank stands in front of it. -/
def levelFrom : Bool → List Char → List Char
  | _, [] => []
  | behindBlank, c :: cs =>
    if isBlank c then
      if behindBlank then levelFrom true cs else ' ' :: levelFrom true cs
    else c :: levelFrom false cs

/-- A text with every run of blanks made one space. -/
def level (cs : List Char) : List Char := levelFrom false cs

/-- A text at whose start no blank stands. -/
def Flush (cs : List Char) : Prop := ∀ c, cs.head? = some c → isBlank c = false

theorem flush_nil : Flush [] := nofun

theorem flush_cons {c : Char} (hc : isBlank c = false) (cs : List Char) : Flush (c :: cs) := by
  intro d hd
  rwa [← Option.some.inj hd]

theorem levelFrom_true_of_flush {cs : List Char} (h : Flush cs) : levelFrom true cs = level cs := by
  cases cs with
  | nil => rfl
  | cons c cs =>
    have hc : ¬isBlank c = true := ne_true_of_eq_false (h c rfl)
    unfold level levelFrom
    rw [if_neg hc, if_neg hc]

theorem level_cons {c : Char} (hc : isBlank c = false) (cs : List Char) :
    level (c :: cs) = c :: level cs := by
  have hc' : ¬isBlank c = true := ne_true_of_eq_false hc
  unfold level
  rw [levelFrom, if_neg hc']

theorem level_blank {c : Char} (hc : isBlank c = true) (cs : List Char) :
    level (c :: cs) = ' ' :: levelFrom true cs := by
  unfold level
  rw [levelFrom, if_pos hc, if_neg Bool.false_ne_true]

theorem levelFrom_true_blank {c : Char} (hc : isBlank c = true) (cs : List Char) :
    levelFrom true (c :: cs) = levelFrom true cs := by
  rw [levelFrom, if_pos hc, if_pos rfl]

/-- A character at the end that is no blank stays there. -/
theorem levelFrom_concat {c : Char} (hc : isBlank c = false) (behindBlank : Bool)
    (cs : List Char) : levelFrom behindBlank (cs ++ [c]) = levelFrom behindBlank cs ++ [c] := by
  induction cs generalizing behindBlank with
  | nil =>
    have hc' : ¬isBlank c = true := ne_true_of_eq_false hc
    show levelFrom behindBlank [c] = [c]
    unfold levelFrom
    rw [if_neg hc']
    rfl
  | cons d cs ih =>
    rw [List.cons_append, levelFrom, levelFrom, ih, ih]
    by_cases hd : isBlank d = true
    · rw [if_pos hd, if_pos hd]
      by_cases hbehind : behindBlank = true
      · rw [if_pos hbehind, if_pos hbehind]
      · rw [if_neg hbehind, if_neg hbehind]
        rfl
    · rw [if_neg hd, if_neg hd]
      rfl

/-! ### Words and normal forms -/

/-- Every text is one that does not end in a blank, and blanks behind it. -/
theorem exists_core (cs : List Char) :
    ∃ core blanks, cs = core ++ blanks ∧ AllBlank blanks ∧
      ∀ front c, core = front ++ [c] → isBlank c = false := by
  induction cs using List.reverseRecOn with
  | nil =>
    refine ⟨[], [], rfl, allBlank_nil, ?_⟩
    intro front c h
    exact absurd h.symm (by simp)
  | append_singleton cs c ih =>
    by_cases hc : isBlank c = true
    · obtain ⟨core, blanks, rfl, hblanks, hcore⟩ := ih
      refine ⟨core, blanks ++ [c], List.append_assoc .., ?_, hcore⟩
      intro d hd
      rcases List.mem_append.mp hd with hd | hd
      · exact hblanks d hd
      · rwa [List.mem_singleton.mp hd]
    · refine ⟨cs ++ [c], [], (List.append_nil _).symm, allBlank_nil, ?_⟩
      intro front d h
      obtain rfl : c = d := by simpa using (List.append_inj' h rfl).2
      simpa using hc

/-- A character that is no blank stays in front of the normal form of what it touches. -/
theorem normalForm_cons_cons {c d : Char} (hc : isBlank c = false) (hd : isBlank d = false)
    (cs : List Char) : normalForm (c :: d :: cs) = c :: normalForm (d :: cs) := by
  obtain ⟨p, ps, hpieces⟩ := List.exists_cons_of_ne_nil (pieces_ne_nil cs)
  have hwords : words (d :: cs) = (d :: p) :: ps.filter fun piece => !piece.isEmpty := by
    unfold words
    rw [pieces, if_neg (ne_true_of_eq_false hd), hpieces]
    rfl
  have hwords' : words (c :: d :: cs) = (c :: d :: p) :: ps.filter fun piece => !piece.isEmpty := by
    unfold words
    rw [pieces, if_neg (ne_true_of_eq_false hc), pieces,
      if_neg (ne_true_of_eq_false hd), hpieces]
    rfl
  unfold normalForm
  rw [hwords, hwords', intercalate_space_cons, intercalate_space_cons]
  rfl

theorem words_singleton {c : Char} (hc : isBlank c = false) : words [c] = [[c]] := by
  refine words_of_noBlank (List.cons_ne_nil c []) ?_
  intro d hd
  rwa [List.mem_singleton.mp hd]

/-- A character that is no blank is a word of its own where a blank follows. -/
theorem words_cons_blank {c d : Char} (hc : isBlank c = false) (hd : isBlank d = true)
    (cs : List Char) : words (c :: d :: cs) = [c] :: words cs := by
  rw [show c :: d :: cs = [c] ++ d :: cs from rfl, words_append_blank hd, words_singleton hc]
  rfl

/-- A levelled text is a normal form, or a normal form with words in it and a space behind. -/
def LevelsTo (levelled cs : List Char) : Prop :=
  levelled = normalForm cs ∨ (words cs ≠ [] ∧ levelled = normalForm cs ++ [' '])

theorem LevelsTo.of_words_eq_nil {levelled cs : List Char} (h : LevelsTo levelled cs)
    (hwords : words cs = []) : levelled = [] := by
  rcases h with h | ⟨hne, _⟩
  · rw [h, normalForm, hwords]
    rfl
  · exact absurd hwords hne

/-- Behind a blank, and behind a character that is no blank, a text levels to its normal form. -/
theorem levelsTo_behind (cs : List Char) :
    LevelsTo (levelFrom true cs) cs ∧
      ∀ c, isBlank c = false → LevelsTo (c :: levelFrom false cs) (c :: cs) := by
  -- both at once: behind a blank the first is asked of the rest, behind a character the second
  induction cs with
  | nil =>
    refine ⟨.inl rfl, fun c hc => .inl ?_⟩
    rw [normalForm, words_singleton hc]
    rfl
  | cons d cs ih =>
    obtain ⟨hblank, hchar⟩ := ih
    by_cases hd : isBlank d = true
    · refine ⟨?_, fun c hc => ?_⟩
      · rw [levelFrom_true_blank hd]
        unfold LevelsTo normalForm at hblank ⊢
        rwa [words_blank_cons cs hd]
      · -- the blank ends the word in front of it, and perhaps there are more words
        have hlevel : levelFrom false (d :: cs) = ' ' :: levelFrom true cs := level_blank hd cs
        unfold LevelsTo normalForm
        rw [hlevel, words_cons_blank hc hd]
        cases hwords : words cs with
        | nil =>
          rw [hblank.of_words_eq_nil hwords]
          exact .inr ⟨List.cons_ne_nil _ _, rfl⟩
        | cons w ws =>
          rw [List.intercalate_cons_cons]
          unfold LevelsTo normalForm at hblank
          rw [hwords] at hblank
          rcases hblank with hblank | ⟨_, hblank⟩
          · exact .inl (by rw [hblank]; rfl)
          · refine .inr ⟨List.cons_ne_nil _ _, ?_⟩
            rw [hblank]
            simp
    · have hd' : isBlank d = false := eq_false_of_ne_true hd
      have hlevel : ∀ behindBlank, levelFrom behindBlank (d :: cs) = d :: levelFrom false cs := by
        intro behindBlank
        rw [levelFrom, if_neg hd]
      have hrest := hchar d hd'
      refine ⟨?_, fun c hc => ?_⟩
      · rwa [hlevel]
      · rw [hlevel]
        unfold LevelsTo
        rw [normalForm_cons_cons hc hd']
        rcases hrest with hrest | ⟨_, hrest⟩
        · exact .inl (by rw [hrest])
        · refine .inr ⟨?_, by rw [hrest]; rfl⟩
          intro hnil
          have hnone := normalForm_cons_cons hc hd' cs
          rw [normalForm, hnil] at hnone
          cases hnone

/-- A text at whose start no blank stands is levelled to its normal form, perhaps with a space
    behind. -/
theorem level_eq_or {cs : List Char} (h : Flush cs) :
    level cs = normalForm cs ∨ level cs = normalForm cs ++ [' '] := by
  have hlevels := (levelsTo_behind cs).1
  rw [levelFrom_true_of_flush h] at hlevels
  exact hlevels.imp_right And.right

end TreeQuery.Text
