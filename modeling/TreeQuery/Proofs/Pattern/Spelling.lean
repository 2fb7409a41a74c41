import Mathlib.Data.List.Basic
import TreeQuery.Pattern.Source

/-! # Spelling — the signs of texts put together

    Where a text stands in front of a closing parenthesis, its signs are those that
    it has alone: no sign that is complete looks past the parenthesis, neither an
    escape nor a set, neither a group nor the bounds of a repetition.

    * **Settled readers**: what a reader takes from a text does not change when a
      closing parenthesis and more follow.
    * **Signs one by one**: the signs of a text are its first sign and those of what
      is left.
    * **Named groups**: a name is read up to the bracket that closes it.
    * **Signs in front of a parenthesis**: the signs of the text, and then those that
      start with the parenthesis.
-/

namespace TreeQuery.Pattern.Lexeme

/-! ### Settled readers -/

/-- A reader goes on in its text, and does not look past a closing parenthesis. -/
def Settled {α : Type} (f : List Char → Except Fault (α × List Char)) : Prop :=
  ∀ cs a rest, f cs = .ok (a, rest) →
    rest.length ≤ cs.length ∧ ∀ more, f (cs ++ ')' :: more) = .ok (a, rest ++ ')' :: more)

theorem takeWhile_append_cons (p : Char → Bool) {stop : Char} (h : p stop = false)
    (cs more : List Char) : (cs ++ stop :: more).takeWhile p = cs.takeWhile p := by
  induction cs with
  | nil => simp [h]
  | cons c cs ih =>
    rw [List.cons_append, List.takeWhile_cons, List.takeWhile_cons, ih]

theorem dropWhile_append_cons (p : Char → Bool) {stop : Char} (h : p stop = false)
    (cs more : List Char) :
    (cs ++ stop :: more).dropWhile p = cs.dropWhile p ++ stop :: more := by
  induction cs with
  | nil => simp [h]
  | cons c cs ih =>
    rw [List.cons_append, List.dropWhile_cons, List.dropWhile_cons, ih]
    split <;> rfl

/-! ### Escapes and sets -/

theorem escape_of_ne {c : Char} (hc : c ≠ 'x') (rest : List Char) :
    escape (c :: rest) =
      match control? c with
      | some d => .ok (d, rest)
      | none => if isPunctuation c then .ok (c, rest) else .error .badEscape := by
  unfold escape
  split
  · next h => exact absurd (List.cons.inj h).1 hc
  · next h =>
    obtain ⟨rfl, rfl⟩ := List.cons.inj h
    rfl
  · next h => cases h

theorem settled_escape : Settled escape := by
  intro cs a rest h
  match cs with
  | [] => cases h
  | c :: cs =>
    by_cases hc : c = 'x'
    · subst hc
      match cs with
      | [] => cases h
      | [high] => cases h
      | high :: low :: cs =>
        unfold escape at h
        simp only at h
        split at h
        · next hhigh hlow =>
          cases h
          refine ⟨by simp only [List.length_cons]; omega, ?_⟩
          intro more
          simp only [List.cons_append, escape, hhigh, hlow]
        · cases h
    · rw [escape_of_ne hc] at h
      have hmore : ∀ more, escape (c :: cs ++ ')' :: more) = _ :=
        fun more => escape_of_ne hc (cs ++ ')' :: more)
      split at h
      · next d hd =>
        cases h
        exact ⟨Nat.le_succ _, fun more => by rw [hmore, hd]⟩
      · next hd =>
        split at h
        · next hp =>
          cases h
          exact ⟨Nat.le_succ _, fun more => by rw [hmore, hd]; exact if_pos hp⟩
        · cases h

theorem settled_member : Settled member := by
  intro cs a rest h
  cases cs with
  | nil => cases h
  | cons c cs =>
    unfold member at h ⊢
    simp only [List.cons_append] at h ⊢
    by_cases hc : c = '\\'
    · simp only [if_pos hc] at h ⊢
      obtain ⟨hlength, hmore⟩ := settled_escape cs a rest h
      exact ⟨Nat.le_succ_of_le hlength, hmore⟩
    · simp only [if_neg hc] at h ⊢
      cases h
      exact ⟨Nat.le_succ _, fun _ => rfl⟩

/-- A character or a range of a set. A hyphen left alone could still start a range. -/
theorem range_append {cs rest : List Char} {r : Char × Char} (h : range cs = .ok (r, rest)) :
    rest.length ≤ cs.length ∧ (rest ≠ ['-'] →
      ∀ more, range (cs ++ ')' :: more) = .ok (r, rest ++ ')' :: more)) := by
  unfold range at h ⊢
  cases hlow : member cs with
  | error fault =>
    rw [hlow] at h
    cases h
  | ok found =>
    obtain ⟨low, left⟩ := found
    obtain ⟨hlength, hmore⟩ := settled_member cs low left hlow
    rw [hlow] at h
    simp only [bind, Except.bind, hmore] at h ⊢
    split at h
    · next d left =>
      simp only [List.cons_append]
      by_cases hd : d = ']' ∨ d = '-'
      · simp only [if_pos hd] at h ⊢
        cases h
        exact ⟨hlength, fun _ _ => rfl⟩
      · simp only [if_neg hd] at h ⊢
        cases hhigh : member (d :: left) with
        | error fault =>
          rw [hhigh] at h
          cases h
        | ok found =>
          obtain ⟨high, left'⟩ := found
          obtain ⟨hlength', hmore'⟩ := settled_member _ high left' hhigh
          rw [hhigh] at h
          simp only [List.cons_append] at hmore'
          simp only [hmore'] at h ⊢
          split at h
          · next hle =>
            cases h
            simp only [List.length_cons] at hlength hlength'
            exact ⟨by omega, fun _ _ => if_pos hle⟩
          · cases h
    · next hno =>
      -- what is left does not go on with a hyphen and another character
      cases h
      refine ⟨hlength, ?_⟩
      intro hrest more
      split
      · next d left' heq =>
        match rest, heq with
        | [c], heq =>
          obtain ⟨rfl, _⟩ := List.cons.inj heq
          exact absurd rfl hrest
        | c :: e :: rest, heq =>
          obtain ⟨rfl, _⟩ := List.cons.inj heq
          exact absurd rfl (hno e rest)
      · rfl

theorem startsSetAlgebra_of_ne {c d : Char} (hc : c ≠ '[') (cs : List Char) :
    startsSetAlgebra (c :: d :: cs) = (c == d && (c == '&' || c == '-' || c == '~')) := by
  unfold startsSetAlgebra
  split
  · next h => exact absurd (List.cons.inj h).1 hc
  · next h =>
    cases h
    rfl
  · next h => exact absurd rfl (h c d cs)

theorem startsSetAlgebra_append (c : Char) (cs more : List Char) :
    startsSetAlgebra (c :: (cs ++ ')' :: more)) = startsSetAlgebra (c :: cs) := by
  by_cases hc : c = '['
  · subst hc
    rfl
  · cases cs with
    | cons d cs => rw [List.cons_append, startsSetAlgebra_of_ne hc, startsSetAlgebra_of_ne hc]
    | nil =>
      -- a parenthesis is doubled by another one only, and that starts no set algebra
      have hopen : startsSetAlgebra [c] = false := by
        unfold startsSetAlgebra
        split
        · next h => exact absurd (List.cons.inj h).1 hc
        · next h => cases h
        · rfl
      rw [hopen, List.nil_append, startsSetAlgebra_of_ne hc, Bool.and_eq_false_iff]
      by_cases heq : c = ')'
      · subst heq
        exact .inr rfl
      · exact .inl (by simpa using heq)

theorem ranges_nil (n : Nat) : ranges n [] = .error .unclosedSet := by
  cases n <;> rfl

/-- A hyphen alone ends no set. -/
theorem ranges_hyphen (n : Nat) : ranges n ['-'] = .error .unclosedSet := by
  cases n with
  | zero => rfl
  | succ n =>
    show (ranges n [] >>= fun _ => _) = _
    rw [ranges_nil]
    rfl

/-- The ranges of a set up to its closing bracket. -/
theorem ranges_append {n : Nat} {cs rest : List Char} {rs : List (Char × Char)}
    (h : ranges n cs = .ok (rs, rest)) :
    rest.length ≤ cs.length ∧ ∀ m, n ≤ m → ∀ more,
      ranges m (cs ++ ')' :: more) = .ok (rs, rest ++ ')' :: more) := by
  induction n generalizing cs rs rest with
  | zero => cases h
  | succ n ih =>
    cases cs with
    | nil => cases h
    | cons c cs =>
      have hfuel : ∀ m, n + 1 ≤ m → ∃ k, m = k + 1 ∧ n ≤ k :=
        fun m hm => ⟨m - 1, by omega, by omega⟩
      unfold ranges at h
      by_cases hclose : c = ']'
      · rw [if_pos hclose] at h
        cases h
        refine ⟨Nat.le_succ _, ?_⟩
        intro m hm more
        obtain ⟨k, rfl, _⟩ := hfuel m hm
        exact if_pos hclose
      · rw [if_neg hclose] at h
        by_cases halgebra : startsSetAlgebra (c :: cs) = true
        · rw [if_pos halgebra] at h
          cases h
        · rw [if_neg halgebra] at h
          cases hfirst : range (c :: cs) with
          | error fault =>
            rw [hfirst] at h
            cases h
          | ok found =>
            obtain ⟨first, left⟩ := found
            obtain ⟨hlength, hmore⟩ := range_append hfirst
            rw [hfirst] at h
            simp only [bind, Except.bind] at h
            cases hothers : ranges n left with
            | error fault =>
              rw [hothers] at h
              cases h
            | ok found =>
              obtain ⟨others, left'⟩ := found
              obtain ⟨hlength', hmore'⟩ := ih hothers
              rw [hothers] at h
              cases h
              have hleft : left ≠ ['-'] := by
                rintro rfl
                rw [ranges_hyphen] at hothers
                cases hothers
              refine ⟨Nat.le_trans hlength' hlength, ?_⟩
              intro m hm more
              obtain ⟨k, rfl, hk⟩ := hfuel m hm
              have halgebra' : ¬ startsSetAlgebra (c :: (cs ++ ')' :: more)) = true := by
                rw [startsSetAlgebra_append]
                exact halgebra
              have hmore := hmore hleft more
              rw [List.cons_append] at hmore ⊢
              unfold ranges
              rw [if_neg hclose, if_neg halgebra', hmore]
              simp only [bind, Except.bind, hmore' k hk more]

theorem leading_append (cs more : List Char) :
    leading (cs ++ ')' :: more) = ((leading cs).1, (leading cs).2 ++ ')' :: more) := by
  have htake := takeWhile_append_cons (· = '-') (show decide (')' = '-') = false by decide) cs more
  have hdrop := dropWhile_append_cons (· = '-') (show decide (')' = '-') = false by decide) cs more
  unfold leading
  rw [htake, hdrop]
  cases htaken : cs.takeWhile (· = '-') with
  | cons c taken => rfl
  | nil =>
    cases hdropped : cs.dropWhile (· = '-') with
    | nil => rfl
    | cons c dropped =>
      simp only [List.cons_append]
      by_cases hc : c = ']'
      · subst hc
        rfl
      · split
        · next h => exact absurd (List.cons.inj h).1 hc
        · split
          · next h => exact absurd (List.cons.inj h).1 hc
          · rfl

theorem length_leading (cs : List Char) : (leading cs).2.length ≤ cs.length := by
  have hdrop := (List.dropWhile_sublist (· = '-') (l := cs)).length_le
  unfold leading
  split
  · next h =>
    rw [h] at hdrop
    exact Nat.le_of_succ_le hdrop
  · exact hdrop

/-- A set of characters, behind the sign that may turn it around. -/
def bracketedBody (negated : Bool) (cs : List Char) : Except Fault (Lexeme × List Char) := do
  let (first, cs) := leading cs
  let (others, rest) ← ranges (cs.length + 1) cs
  let members := first ++ others
  .ok (.set (.ofRanges negated members) members.length, rest)

theorem settled_bracketedBody (negated : Bool) : Settled (bracketedBody negated) := by
  intro cs a rest h
  unfold bracketedBody at h ⊢
  cases hranges : ranges ((leading cs).2.length + 1) (leading cs).2 with
  | error fault =>
    simp only [hranges] at h
    cases h
  | ok found =>
    obtain ⟨others, left⟩ := found
    obtain ⟨hlength, hmore⟩ := ranges_append hranges
    simp only [hranges] at h
    cases h
    refine ⟨Nat.le_trans hlength (length_leading cs), ?_⟩
    intro more
    simp only [leading_append]
    rw [hmore _ (by simp) more]
    rfl

theorem bracketed_of_ne {c : Char} (hc : c ≠ '^') (cs : List Char) :
    bracketed (c :: cs) = bracketedBody false (c :: cs) := by
  unfold bracketed
  split
  · next h =>
    split at h
    · next h' => exact absurd (List.cons.inj h').1 hc
    · cases h
      rfl

/-- A set of characters. -/
theorem settled_bracketed : Settled bracketed := by
  intro cs a rest h
  match cs with
  | [] => exact settled_bracketedBody false [] a rest h
  | c :: cs =>
    by_cases hc : c = '^'
    · subst hc
      obtain ⟨hlength, hmore⟩ := settled_bracketedBody true cs a rest h
      exact ⟨Nat.le_succ_of_le hlength, hmore⟩
    · rw [bracketed_of_ne hc] at h
      obtain ⟨hlength, hmore⟩ := settled_bracketedBody false (c :: cs) a rest h
      refine ⟨hlength, fun more => ?_⟩
      rw [List.cons_append, bracketed_of_ne hc]
      exact hmore more

/-! ### Groups and repetitions -/

/-- The name of a group ends before the text does. -/
theorem settled_groupName : Settled groupName := by
  intro cs a rest h
  unfold groupName at h ⊢
  cases hdropped : cs.dropWhile (· ≠ '>') with
  | nil =>
    rw [hdropped] at h
    cases h
  | cons c left =>
    have hc : decide (c ≠ '>') = false := by
      have hhead := List.head?_dropWhile_not (· ≠ '>') cs
      rwa [hdropped] at hhead
    have hlength := (List.dropWhile_sublist (· ≠ '>') (l := cs)).length_le
    have hcs := List.takeWhile_append_dropWhile (p := (· ≠ '>')) (l := cs)
    rw [hdropped] at hcs hlength
    have hdrop := dropWhile_append_cons (· ≠ '>') hc (cs.takeWhile (· ≠ '>')) left
    have htake := takeWhile_append_cons (· ≠ '>') hc (cs.takeWhile (· ≠ '>')) left
    rw [hcs] at hdrop htake
    have hnone : (cs.takeWhile (· ≠ '>')).dropWhile (· ≠ '>') = [] :=
      List.append_left_eq_self.mp (hdrop.symm.trans hdropped)
    rw [hdropped] at h
    simp only at h
    split at h
    · next hname =>
      cases h
      refine ⟨Nat.le_of_succ_le hlength, ?_⟩
      intro more
      have hmore : cs ++ ')' :: more =
          cs.takeWhile (· ≠ '>') ++ c :: (rest ++ ')' :: more) := by
        conv => lhs; rw [← hcs]
        simp
      rw [hmore, dropWhile_append_cons (· ≠ '>') hc, takeWhile_append_cons (· ≠ '>') hc, ← htake,
        hnone]
      exact if_pos hname
    · cases h

theorem settled_group : Settled group := by
  intro cs a rest h
  unfold group at h
  split at h
  · cases h
    exact ⟨by simp only [List.length_cons]; omega, fun _ => rfl⟩
  · next cs =>
    obtain ⟨hlength, hmore⟩ := settled_groupName cs a rest h
    exact ⟨by simp only [List.length_cons]; omega, hmore⟩
  · next cs =>
    obtain ⟨hlength, hmore⟩ := settled_groupName cs a rest h
    exact ⟨by simp only [List.length_cons]; omega, hmore⟩
  · cases h
  · next hno =>
    cases h
    refine ⟨Nat.le_refl _, ?_⟩
    intro more
    cases cs with
    | nil => rfl
    | cons c cs =>
      unfold group
      have hc : c ≠ '?' := fun hc => hno cs (hc ▸ rfl)
      simp [hc]

/-- A mark that makes a repetition lazy would follow at once. -/
theorem repetition_append (least : Nat) (most : Option Nat) (cs more : List Char) :
    repetition least most (cs ++ ')' :: more) =
      ((repetition least most cs).1, (repetition least most cs).2 ++ ')' :: more) := by
  cases cs with
  | nil => rfl
  | cons c cs =>
    by_cases hc : c = '?'
    · subst hc
      rfl
    · simp [repetition, hc]

theorem length_repetition (least : Nat) (most : Option Nat) (cs : List Char) :
    (repetition least most cs).2.length ≤ cs.length := by
  unfold repetition
  split
  · exact Nat.le_succ _
  · exact Nat.le_refl _

theorem settled_repetition (least : Nat) (most : Option Nat) :
    Settled fun cs => .ok (repetition least most cs) := by
  intro cs a rest h
  have hboth := Except.ok.inj h
  have hlength := length_repetition least most cs
  rw [hboth] at hlength
  refine ⟨hlength, ?_⟩
  intro more
  show Except.ok (repetition least most (cs ++ ')' :: more)) = _
  rw [repetition_append, hboth]

theorem number_append (cs more : List Char) :
    number (cs ++ ')' :: more) = ((number cs).1, (number cs).2 ++ ')' :: more) := by
  have hspace : Text.isSpace ')' = false := by decide
  have hdigit : Char.isDigit ')' = false := by decide
  unfold number
  simp only [dropWhile_append_cons _ hspace, dropWhile_append_cons _ hdigit,
    takeWhile_append_cons _ hdigit]

theorem length_number (cs : List Char) : (number cs).2.length ≤ cs.length := by
  unfold number
  have h := (List.dropWhile_sublist Text.isSpace (l := cs)).length_le
  have h' := (List.dropWhile_sublist Char.isDigit (l := cs.dropWhile Text.isSpace)).length_le
  have h'' := (List.dropWhile_sublist Text.isSpace
    (l := (cs.dropWhile Text.isSpace).dropWhile Char.isDigit)).length_le
  simp only
  omega

/-- Two bounds, where a brace does not follow the comma at once. -/
theorem bounds_of_comma {cs left : List Char} {least : Nat}
    (h : number cs = (some least, ',' :: left)) (hopen : ∀ after, left ≠ '\x7d' :: after) :
    bounds cs =
      match number left with
      | (some most, '\x7d' :: rest) =>
        if least ≤ most then .ok (repetition least (some most) rest) else .error .badBounds
      | _ => .error .badBounds := by
  unfold bounds
  rw [h]
  split
  · next heq => cases heq
  · next heq =>
    cases heq
    exact absurd rfl (hopen _)
  · next heq =>
    cases heq
    rfl
  · next hno => exact absurd rfl (hno least left)

/-- The bounds of a repetition end with a brace. -/
theorem settled_bounds : Settled bounds := by
  intro cs a rest h
  have hlength := length_number cs
  have hbounds := h
  unfold bounds at h
  split at h
  · next least left hnumber =>
    obtain ⟨hlength', hmore⟩ := settled_repetition least (some least) left a rest h
    simp only [hnumber, List.length_cons] at hlength
    refine ⟨by omega, ?_⟩
    intro more
    unfold bounds
    rw [number_append, hnumber]
    exact hmore more
  · next least left hnumber =>
    obtain ⟨hlength', hmore⟩ := settled_repetition least none left a rest h
    simp only [hnumber, List.length_cons] at hlength
    refine ⟨by omega, ?_⟩
    intro more
    unfold bounds
    rw [number_append, hnumber]
    exact hmore more
  · next least left hno hnumber =>
    have hlength' := length_number left
    split at h
    · next most left' hnumber' =>
      split at h
      · next hle =>
        obtain ⟨hlength'', hmore⟩ := settled_repetition least (some most) left' a rest h
        simp only [hnumber, hnumber', List.length_cons] at hlength hlength'
        refine ⟨by omega, ?_⟩
        intro more
        have hcomma : number (cs ++ ')' :: more) = (some least, ',' :: (left ++ ')' :: more)) := by
          rw [number_append, hnumber]
          rfl
        -- no brace follows the comma when more text follows, either
        have hopen : ∀ after, left ++ ')' :: more ≠ '\x7d' :: after := by
          intro after heq
          cases left with
          | nil => cases heq
          | cons c left =>
            obtain ⟨rfl, _⟩ := List.cons.inj heq
            exact hno left rfl
        rw [bounds_of_comma hcomma hopen, number_append, hnumber']
        show (if least ≤ most then _ else _) = _
        rw [if_pos hle]
        exact hmore more
      · cases h
    · cases h
  · cases h

/-! ### Signs one by one -/

theorem Settled.map {α β : Type} {f : List Char → Except Fault (α × List Char)} (h : Settled f)
    (g : α → β) : Settled fun cs => (f cs).map fun (a, rest) => (g a, rest) := by
  intro cs b rest hb
  cases hf : f cs with
  | error fault =>
    simp only [hf] at hb
    cases hb
  | ok found =>
    obtain ⟨a, left⟩ := found
    simp only [hf] at hb
    cases hb
    obtain ⟨hlength, hmore⟩ := h cs a left hf
    refine ⟨hlength, ?_⟩
    intro more
    show (f (cs ++ ')' :: more)).map _ = _
    rw [hmore]
    rfl

theorem settled_ok {α : Type} (a : α) :
    Settled fun cs => (.ok (a, cs) : Except Fault (α × List Char)) := by
  intro cs b rest h
  cases h
  exact ⟨Nat.le_refl _, fun _ => rfl⟩

/-- Every sign is settled. -/
theorem settled_next (c : Char) : Settled (next c) := by
  unfold next
  split
  · exact settled_escape.map fun d => Lexeme.char (.single d)
  · exact settled_bracketed
  · exact settled_group
  · exact settled_ok _
  · exact settled_ok _
  · exact settled_repetition 0 none
  · exact settled_repetition 1 none
  · exact settled_repetition 0 (some 1)
  · exact settled_bounds
  · exact settled_ok _
  · exact settled_ok _
  · exact settled_ok _
  · exact settled_ok _

/-- More steps than the text has characters make no difference. -/
theorem readAtMost_eq_read {n : Nat} {cs : List Char} (h : cs.length ≤ n) :
    readAtMost n cs = read cs := by
  unfold read
  -- both bounds are enough, so by induction on one of them both take the same signs
  suffices hboth : ∀ (m n : Nat) (cs : List Char), cs.length ≤ m → cs.length ≤ n →
      readAtMost n cs = readAtMost m cs from hboth cs.length n cs (Nat.le_refl _) h
  intro m
  induction m with
  | zero =>
    intro n cs hm _
    rw [List.eq_nil_of_length_eq_zero (Nat.le_zero.mp hm)]
    cases n <;> rfl
  | succ m ih =>
    intro n cs hm hn
    cases cs with
    | nil => cases n <;> rfl
    | cons c cs =>
      cases n with
      | zero => cases hn
      | succ n =>
        unfold readAtMost
        cases hnext : next c cs with
        | error fault => rfl
        | ok found =>
          obtain ⟨lexeme, rest⟩ := found
          have hlength := (settled_next c cs lexeme rest hnext).1
          simp only [List.length_cons] at hm hn
          simp only [bind, Except.bind]
          rw [ih n rest (by omega) (by omega)]

theorem read_nil : read [] = .ok [] := rfl

/-- The signs of a text are its first sign and those of what is left. -/
theorem read_cons {c : Char} {cs rest : List Char} {lexeme : Lexeme}
    (h : next c cs = .ok (lexeme, rest)) :
    read (c :: cs) = (read rest).map (lexeme :: ·) := by
  have hlength := (settled_next c cs lexeme rest h).1
  show (next c cs >>= fun found => readAtMost cs.length found.2 >>= fun lexemes =>
    .ok (found.1 :: lexemes)) = _
  rw [h]
  show (readAtMost cs.length rest >>= fun lexemes => .ok (lexeme :: lexemes)) = _
  rw [readAtMost_eq_read hlength]
  cases read rest <;> rfl

theorem exists_of_read_cons {c : Char} {cs : List Char} {lexemes : List Lexeme}
    (h : read (c :: cs) = .ok lexemes) :
    ∃ lexeme rest others, next c cs = .ok (lexeme, rest) ∧ read rest = .ok others ∧
      lexemes = lexeme :: others := by
  cases hnext : next c cs with
  | error fault =>
    have herror : read (c :: cs) = .error fault := by
      show (next c cs >>= fun _ => _) = _
      rw [hnext]
      rfl
    rw [herror] at h
    cases h
  | ok found =>
    obtain ⟨lexeme, rest⟩ := found
    rw [read_cons hnext] at h
    cases hrest : read rest with
    | error fault =>
      rw [hrest] at h
      cases h
    | ok others =>
      rw [hrest] at h
      cases h
      exact ⟨lexeme, rest, others, rfl, hrest, rfl⟩

/-! ### Named groups -/

theorem isGroupNameStart_close : isGroupNameStart '>' = false := by decide

theorem isGroupNameChar_close : isGroupNameChar '>' = false := by decide

/-- No name of a group has a closing angle bracket in it. -/
theorem ne_close_of_isGroupName {name : List Char} (h : isGroupName name = true) :
    ∀ c ∈ name, c ≠ '>' := by
  cases name with
  | nil => exact List.forall_mem_nil _
  | cons c cs =>
    simp only [isGroupName, Bool.and_eq_true, List.all_eq_true] at h
    intro d hd heq
    subst heq
    rcases List.mem_cons.mp hd with heq | hd
    · rw [← heq, isGroupNameStart_close] at h
      exact Bool.false_ne_true h.1
    · exact Bool.false_ne_true (isGroupNameChar_close.symm.trans (h.2 _ hd))

/-- A name of a group is read up to its closing angle bracket. -/
theorem groupName_append {name : List Char} (h : isGroupName name = true) (rest : List Char) :
    groupName (name ++ '>' :: rest) =
      .ok (.opening (.remembered (some (String.ofList name))), rest) := by
  have hall : ∀ c ∈ name, decide (c ≠ '>') = true := fun c hc =>
    decide_eq_true (ne_close_of_isGroupName h c hc)
  have htake : (name ++ '>' :: rest).takeWhile (· ≠ '>') = name := by
    rw [List.takeWhile_append_of_pos hall]
    simp
  have hdrop : (name ++ '>' :: rest).dropWhile (· ≠ '>') = '>' :: rest := by
    rw [List.dropWhile_append_of_pos hall]
    simp
  unfold groupName
  rw [hdrop, htake]
  exact if_pos h

/-! ### Signs in front of a parenthesis -/

/-- **Signs in front of a parenthesis**: in front of a closing parenthesis a text has the signs that
    it has alone. -/
theorem read_append {cs : List Char} {lexemes : List Lexeme} (h : read cs = .ok lexemes)
    (more : List Char) :
    read (cs ++ ')' :: more) = (read more).map fun others => lexemes ++ .closing :: others := by
  induction hn : cs.length using Nat.strongRecOn generalizing cs lexemes with
  | ind n ih =>
    cases cs with
    | nil =>
      cases h
      exact read_cons rfl
    | cons c cs =>
      obtain ⟨lexeme, rest, others, hnext, hrest, rfl⟩ := exists_of_read_cons h
      obtain ⟨hlength, hmore⟩ := settled_next c cs lexeme rest hnext
      have hlt : rest.length < n := by
        rw [← hn, List.length_cons]
        omega
      rw [List.cons_append, read_cons (hmore more), ih rest.length hlt hrest rfl]
      cases read more <;> rfl

end TreeQuery.Pattern.Lexeme
