import Mathlib.Data.List.Basic
import TreeQuery.Text.Blank

/-! # Words — what a text with blanks in it comes to

    The words of a text are told from left to right: blanks are passed over, and a
    run of other characters is a word as soon as a blank or the end follows. So a
    normal form starts and ends with a word, and not with a space.
-/

namespace TreeQuery.Text

/-- A text of blanks only. -/
def AllBlank (cs : List Char) : Prop := ∀ c ∈ cs, isBlank c = true

instance : DecidablePred AllBlank :=
  fun cs => List.decidableBAll (fun c => isBlank c = true) cs

/-- A text without blanks. -/
def NoBlank (cs : List Char) : Prop := ∀ c ∈ cs, isBlank c = false

instance : DecidablePred NoBlank :=
  fun cs => List.decidableBAll (fun c => isBlank c = false) cs

theorem allBlank_nil : AllBlank [] := fun _ hc => absurd hc List.not_mem_nil

theorem NoBlank.of_suffix {cs rest : List Char} (h : NoBlank cs) (hsuffix : rest <:+ cs) :
    NoBlank rest :=
  fun c hc => h c (hsuffix.subset hc)

theorem pieces_ne_nil (cs : List Char) : pieces cs ≠ [] := by
  cases cs with
  | nil => exact List.cons_ne_nil _ _
  | cons c cs =>
    unfold pieces
    by_cases hc : isBlank c = true
    · rw [if_pos hc]
      exact List.cons_ne_nil _ _
    · rw [if_neg hc]
      unfold growFirst
      split <;> exact List.cons_ne_nil _ _

theorem growFirst_append (c : Char) {ps : List (List Char)} (hps : ps ≠ [])
    (qs : List (List Char)) : growFirst c (ps ++ qs) = growFirst c ps ++ qs := by
  cases ps with
  | nil => exact absurd rfl hps
  | cons p ps => rfl

/-- A blank divides the pieces of a text. -/
theorem pieces_append_blank {b : Char} (hb : isBlank b = true) (cs ds : List Char) :
    pieces (cs ++ b :: ds) = pieces cs ++ pieces ds := by
  induction cs with
  | nil =>
    show (if isBlank b then [] :: pieces ds else growFirst b (pieces ds)) = _
    rw [if_pos hb]
    rfl
  | cons c cs ih =>
    rw [List.cons_append, pieces, ih]
    by_cases hc : isBlank c = true
    · rw [if_pos hc, pieces, if_pos hc, List.cons_append]
    · rw [if_neg hc, growFirst_append c (pieces_ne_nil cs), pieces, if_neg hc]

/-- A blank divides the words of a text. -/
theorem words_append_blank {b : Char} (hb : isBlank b = true) (cs ds : List Char) :
    words (cs ++ b :: ds) = words cs ++ words ds := by
  unfold words
  rw [pieces_append_blank hb, List.filter_append]

theorem words_allBlank_append {blanks : List Char} (h : AllBlank blanks) (cs : List Char) :
    words (blanks ++ cs) = words cs := by
  induction blanks with
  | nil => rfl
  | cons b blanks ih =>
    rw [List.cons_append, words_blank_cons _ (h b List.mem_cons_self)]
    exact ih fun c hc => h c (List.mem_cons_of_mem b hc)

theorem pieces_noBlank {w : List Char} (hw : NoBlank w) : pieces w = [w] := by
  induction w with
  | nil => rfl
  | cons c w ih =>
    have hc : ¬isBlank c = true := by
      rw [hw c List.mem_cons_self]
      exact Bool.false_ne_true
    rw [pieces, if_neg hc, ih fun d hd => hw d (List.mem_cons_of_mem c hd)]
    rfl

/-- A word is its own only word. -/
theorem words_of_noBlank {w : List Char} (hne : w ≠ []) (hw : NoBlank w) : words w = [w] := by
  unfold words
  rw [pieces_noBlank hw]
  simp [hne]

/-- Blanks at the end do not count. -/
theorem words_append_allBlank (cs : List Char) {blanks : List Char} (h : AllBlank blanks) :
    words (cs ++ blanks) = words cs := by
  cases blanks with
  | nil => rw [List.append_nil]
  | cons b blanks =>
    -- the first blank ends the last word, and the others have no words
    have hnone := words_allBlank_append (fun c hc => h c (List.mem_cons_of_mem b hc)) []
    rw [List.append_nil, words_nil] at hnone
    rw [words_append_blank (h b List.mem_cons_self), hnone, List.append_nil]

/-! ### Normal forms -/

theorem noBlank_of_mem_pieces {cs piece : List Char} (h : piece ∈ pieces cs) : NoBlank piece := by
  induction cs generalizing piece with
  | nil =>
    rw [List.mem_singleton.mp h]
    exact fun c hc => absurd hc List.not_mem_nil
  | cons c cs ih =>
    unfold pieces at h
    by_cases hc : isBlank c = true
    · rw [if_pos hc] at h
      rcases List.mem_cons.mp h with rfl | h
      · exact fun c hc => absurd hc List.not_mem_nil
      · exact ih h
    · rw [if_neg hc] at h
      obtain ⟨first, others, hpieces⟩ := List.exists_cons_of_ne_nil (pieces_ne_nil cs)
      rw [hpieces] at h ih
      rcases List.mem_cons.mp h with rfl | h
      · -- the first piece has grown by a character that is not blank
        intro d hd
        rcases List.mem_cons.mp hd with rfl | hd
        · simpa using hc
        · exact ih List.mem_cons_self d hd
      · exact ih (List.mem_cons_of_mem first h)

theorem noBlank_of_mem_words {cs w : List Char} (h : w ∈ words cs) : NoBlank w :=
  noBlank_of_mem_pieces (List.mem_filter.mp h).1

theorem ne_nil_of_mem_words {cs w : List Char} (h : w ∈ words cs) : w ≠ [] := by
  have hne := (List.mem_filter.mp h).2
  simpa using hne

/-- Texts joined by single spaces are the first of them and the others with a space in front. -/
theorem intercalate_space_cons (w : List Char) (ws : List (List Char)) :
    [' '].intercalate (w :: ws) = w ++ ws.flatMap (' ' :: ·) := by
  induction ws generalizing w with
  | nil => simp
  | cons v ws ih =>
    rw [List.intercalate_cons_cons, ih v, List.flatMap_cons]
    simp

theorem normalForm_ne_space_cons (cs ds : List Char) : normalForm cs ≠ ' ' :: ds := by
  unfold normalForm
  cases hwords : words cs with
  | nil => exact (List.cons_ne_nil _ _).symm
  | cons w ws =>
    have hw : w ∈ words cs := by rw [hwords]; exact List.mem_cons_self
    obtain ⟨c, w, rfl⟩ := List.exists_cons_of_ne_nil (ne_nil_of_mem_words hw)
    have hc : isBlank c = false := noBlank_of_mem_words hw c List.mem_cons_self
    rw [intercalate_space_cons]
    intro h
    obtain rfl : c = ' ' := (List.cons.inj h).1
    cases hc

theorem normalForm_ne_append_space (cs ds : List Char) : normalForm cs ≠ ds ++ [' '] := by
  -- a normal form is either empty or ends with the last of its words
  have hlast : ∀ w ∈ words cs, ∀ front, front ++ w ≠ ds ++ [' '] := by
    intro w hw front h
    obtain ⟨w, c, rfl⟩ := List.eq_nil_or_concat w |>.resolve_left (ne_nil_of_mem_words hw)
    have hc : isBlank c = false := noBlank_of_mem_words hw c (by simp)
    rw [List.concat_eq_append, ← List.append_assoc] at h
    obtain rfl : c = ' ' := by simpa using (List.append_inj' h rfl).2
    cases hc
  unfold normalForm
  rcases List.eq_nil_or_concat (words cs) with hwords | ⟨ws, w, hwords⟩
  · rw [hwords]
    simp
  · have hw : w ∈ words cs := by rw [hwords]; simp
    rw [hwords, List.concat_eq_append]
    cases ws with
    | nil => simpa using hlast w hw []
    | cons v ws =>
      rw [List.cons_append, intercalate_space_cons, List.flatMap_append, ← List.append_assoc]
      have hend := hlast w hw (v ++ ws.flatMap (' ' :: ·) ++ [' '])
      simpa using hend

end TreeQuery.Text
