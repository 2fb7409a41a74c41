import TreeQuery.Proofs.Grammar.Scan

/-! # Cutting — a token is read by itself as it is read in its place

    The lexer looks no further than it has to: what it leaves of a text has no part
    in what it reads. So a text can be cut where the lexer stops, and the front part
    is read by the same rule, with nothing left.

    * **Readers that can be cut**: a property of readers that is kept when one reads
      on behind another.
    * **Units, identifiers, tokens** can be cut.
    * **Hits**: the text of a hit, taken by itself, is read by the rule of the hit.
-/

namespace TreeQuery.Lexer

/-! ### Readers that can be cut -/

/-- A reader that leaves a tail of its text, and reads the same without what stands at the end of
    that tail. -/
structure Cuts (read? : List Char → Option (List Char)) : Prop where
  suffix : ∀ {cs rest}, read? cs = some rest → rest <:+ cs
  cut : ∀ {cs left more}, read? (cs ++ more) = some (left ++ more) → read? cs = some left

/-- Whatever part of its text a reader leaves, it reads the part in front by itself. -/
theorem Cuts.alone {read? : List Char → Option (List Char)} (h : Cuts read?)
    {read rest : List Char} (hread : read? (read ++ rest) = some rest) : read? read = some [] :=
  h.cut hread

/-- A reader that reads on behind another. -/
theorem Cuts.bind {first second : List Char → Option (List Char)} (hfirst : Cuts first)
    (hsecond : Cuts second) : Cuts fun cs => (first cs).bind second := by
  constructor
  · intro cs rest h
    obtain ⟨m, hm, hrest⟩ := Option.bind_eq_some_iff.mp h
    exact (hsecond.suffix hrest).trans (hfirst.suffix hm)
  · intro cs left more h
    obtain ⟨m, hm, hleft⟩ := Option.bind_eq_some_iff.mp h
    -- what is to be cut off stands at the end of what the first reader leaves
    obtain ⟨front, rfl⟩ := hsecond.suffix hleft
    rw [← List.append_assoc] at hm hleft
    show (first cs).bind second = some left
    rw [hfirst.cut hm]
    exact hsecond.cut hleft

/-! ### Units -/

/-- What is left cannot be longer than the text it is left of. -/
theorem nil_of_append_suffix {left more cs : List Char} (h : cs = left ++ more)
    (hsuffix : cs <:+ more) : left = [] := by
  subst h
  have hlength := hsuffix.length_le
  rw [List.length_append] at hlength
  exact List.eq_nil_of_length_eq_zero (by omega)

theorem cuts_afterDigits (n : Nat) : Cuts fun cs => some (afterDigits n cs) := by
  constructor
  · intro cs rest h
    obtain rfl := Option.some.inj h
    exact (closed_afterDigits n cs).suffix
  · intro cs left more h
    have hleft : afterDigits n (cs ++ more) = left ++ more := Option.some.inj h
    refine congrArg some ?_
    clear h
    induction n generalizing cs with
    | zero => exact List.append_cancel_right hleft
    | succ n ih =>
      cases cs with
      | nil =>
        exact (nil_of_append_suffix hleft (closed_afterDigits (n + 1) more).suffix).symm
      | cons c cs =>
        simp only [List.cons_append, afterDigits] at hleft ⊢
        by_cases hc : isHexDigit c = true
        · rw [if_pos hc] at hleft ⊢
          exact ih hleft
        · rw [if_neg hc] at hleft ⊢
          exact List.append_cancel_right hleft

theorem cuts_afterBlank : Cuts fun cs => some (afterBlank cs) := by
  constructor
  · intro cs rest h
    obtain rfl := Option.some.inj h
    exact (closed_afterBlank cs).suffix
  · intro cs left more h
    have hleft : afterBlank (cs ++ more) = left ++ more := Option.some.inj h
    refine congrArg some ?_
    match cs with
    | [] =>
      exact (nil_of_append_suffix hleft (closed_afterBlank more).suffix).symm
    | [c] =>
      cases more with
      | nil => exact hleft.trans (List.append_nil left)
      | cons d more =>
        simp only [List.singleton_append, afterBlank] at hleft ⊢
        by_cases hpair : c = '\r' ∧ d = '\n'
        · -- a line feed that belongs to the blank is not left, so it is not cut off
          rw [if_pos hpair] at hleft
          have hlength := congrArg List.length hleft
          rw [List.length_append, List.length_cons] at hlength
          omega
        · rw [if_neg hpair] at hleft
          by_cases hc : Text.isBlank c = true
          · rw [if_pos hc] at hleft ⊢
            exact (List.self_eq_append_left.mp hleft).symm
          · rw [if_neg hc] at hleft ⊢
            exact List.append_cancel_right (hleft : [c] ++ d :: more = left ++ d :: more)
    | c :: d :: cs =>
      simp only [List.cons_append, afterBlank] at hleft ⊢
      by_cases hpair : c = '\r' ∧ d = '\n'
      · rw [if_pos hpair] at hleft ⊢
        exact List.append_cancel_right hleft
      · rw [if_neg hpair] at hleft ⊢
        by_cases hc : Text.isBlank c = true
        · rw [if_pos hc] at hleft ⊢
          exact List.append_cancel_right (hleft : d :: cs ++ more = left ++ more)
        · rw [if_neg hc] at hleft ⊢
          exact List.append_cancel_right (hleft : c :: d :: cs ++ more = left ++ more)

theorem cuts_escape? : Cuts escape? := by
  have hcode : Cuts fun cs => some (afterBlank (afterDigits 5 cs)) :=
    (cuts_afterDigits 5).bind cuts_afterBlank
  constructor
  · intro cs rest h
    cases cs with
    | nil => cases h
    | cons c cs =>
      rcases escape?_cons_eq_some_iff.mp h with ⟨_, hrest⟩ | ⟨_, _, rfl⟩
      · exact (hcode.suffix (congrArg some hrest)).trans (List.suffix_cons c cs)
      · exact List.suffix_cons c cs
  · intro cs left more h
    cases cs with
    | nil =>
      -- an escape takes a character at least, so it is not all cut off
      cases more with
      | nil => cases h
      | cons d more =>
        exfalso
        have hsuffix : left ++ d :: more <:+ more := by
          rcases escape?_cons_eq_some_iff.mp h with ⟨_, hrest⟩ | ⟨_, _, hrest⟩
          · exact hcode.suffix (congrArg some hrest)
          · exact hrest ▸ List.suffix_refl _
        have hlength := hsuffix.length_le
        rw [List.length_append, List.length_cons] at hlength
        omega
    | cons c cs =>
      rcases escape?_cons_eq_some_iff.mp h with ⟨hc, hrest⟩ | ⟨hc, hline, hrest⟩
      · refine escape?_cons_eq_some_iff.mpr (.inl ⟨hc, Option.some.inj ?_⟩)
        exact hcode.cut (congrArg some hrest)
      · exact escape?_cons_eq_some_iff.mpr (.inr ⟨hc, hline, List.append_cancel_right hrest⟩)

theorem cuts_unit? {plain : Char → Bool} (hplain : AsciiPlain plain) : Cuts (unit? plain) := by
  constructor
  · intro cs rest h
    exact (closed_unit? hplain h).1.suffix
  · intro cs left more h
    cases cs with
    | nil =>
      have hlength := (closed_unit? hplain h).2
      rw [List.nil_append, List.length_append] at hlength
      omega
    | cons c cs =>
      rcases unit?_cons_eq_some_iff.mp h with ⟨hc, hrest⟩ | ⟨hc, hbackslash, hescape⟩
      · exact unit?_cons_eq_some_iff.mpr (.inl ⟨hc, List.append_cancel_right hrest⟩)
      · exact unit?_cons_eq_some_iff.mpr (.inr ⟨hc, hbackslash, cuts_escape?.cut hescape⟩)

/-- More text behind a unit keeps it a unit, though it may become a longer one. -/
theorem unit?_append_ne_none {plain : Char → Bool} {cs rest : List Char}
    (h : unit? plain cs = some rest) (more : List Char) : unit? plain (cs ++ more) ≠ none := by
  cases cs with
  | nil => cases h
  | cons c cs =>
    rw [List.cons_append, Ne, Option.eq_none_iff_forall_ne_some, not_forall_not]
    rcases unit?_cons_eq_some_iff.mp h with ⟨hc, _⟩ | ⟨hc, hbackslash, hescape⟩
    · exact ⟨_, unit?_cons_eq_some_iff.mpr (.inl ⟨hc, rfl⟩)⟩
    · cases cs with
      | nil => cases hescape
      | cons d cs =>
        have hread : ∃ rest, escape? (d :: (cs ++ more)) = some rest := by
          rcases escape?_cons_eq_some_iff.mp hescape with ⟨hd, _⟩ | ⟨hd, hline, _⟩
          · exact ⟨_, escape?_cons_eq_some_iff.mpr (.inl ⟨hd, rfl⟩)⟩
          · exact ⟨_, escape?_cons_eq_some_iff.mpr (.inr ⟨hd, hline, rfl⟩)⟩
        obtain ⟨rest, hrest⟩ := hread
        exact ⟨rest, unit?_cons_eq_some_iff.mpr (.inr ⟨hc, hbackslash, hrest⟩)⟩

theorem cuts_afterUnits : Cuts fun cs => some (afterUnits cs) := by
  constructor
  · intro cs rest h
    obtain rfl := Option.some.inj h
    exact (closed_afterUnits cs).suffix
  · intro cs left more h
    have hleft : afterUnits (cs ++ more) = left ++ more := Option.some.inj h
    refine congrArg some ?_
    clear h
    -- the first unit is read by itself, and then the others are
    generalize htext : cs ++ more = text at hleft
    induction text using units_induction generalizing cs with
    | stop text hunit =>
      rw [afterUnits_of_none hunit, ← htext] at hleft
      obtain rfl := List.append_cancel_right hleft
      rw [← htext] at hunit
      cases hcs : unit? isNameChar cs with
      | none => exact afterUnits_of_none hcs
      | some rest => exact absurd hunit (unit?_append_ne_none hcs more)
    | unit text rest hunit ih =>
      rw [afterUnits_of_some hunit] at hleft
      have hsuffix : left ++ more <:+ rest := hleft ▸ (closed_afterUnits rest).suffix
      obtain ⟨front, rfl⟩ := hsuffix
      rw [← htext, ← List.append_assoc] at hunit
      have hfirst := (cuts_unit? asciiPlain_isNameChar).cut hunit
      rw [afterUnits_of_some hfirst]
      exact ih (List.append_assoc ..) hleft

/-! ### Identifiers and tokens -/

theorem cuts_afterSign : Cuts fun cs => some (afterSign cs) := by
  constructor
  · intro cs rest h
    obtain rfl := Option.some.inj h
    exact (closed_afterSign cs).suffix
  · intro cs left more h
    have hleft : afterSign (cs ++ more) = left ++ more := Option.some.inj h
    refine congrArg some ?_
    cases cs with
    | nil =>
      exact (nil_of_append_suffix hleft (closed_afterSign more).suffix).symm
    | cons c cs =>
      simp only [List.cons_append, afterSign] at hleft ⊢
      by_cases hc : c = '-' ∨ c = '@'
      · rw [if_pos hc] at hleft ⊢
        exact List.append_cancel_right hleft
      · rw [if_neg hc] at hleft ⊢
        exact List.append_cancel_right (hleft : c :: cs ++ more = left ++ more)

theorem cuts_ident? : Cuts ident? := by
  have hunits : Cuts fun cs => (unit? isNameStart cs).map afterUnits := by
    simp only [Option.map_eq_bind]
    exact (cuts_unit? asciiPlain_isNameStart).bind cuts_afterUnits
  exact cuts_afterSign.bind hunits

theorem cuts_marked? (marker : Char) : Cuts (marked? marker) := by
  constructor
  · intro cs rest h
    obtain ⟨ds, rfl, hds⟩ := marked?_eq_some_iff.mp h
    exact (cuts_ident?.suffix hds).trans (List.suffix_cons marker ds)
  · intro cs left more h
    obtain ⟨ds, hcs, hds⟩ := marked?_eq_some_iff.mp h
    cases cs with
    | nil =>
      -- a marker is read, so it is not all cut off
      obtain rfl : more = marker :: ds := hcs
      have hlength := (cuts_ident?.suffix hds).length_le
      rw [List.length_append, List.length_cons] at hlength
      omega
    | cons c cs =>
      obtain ⟨rfl, rfl⟩ := List.cons.inj hcs
      exact marked?_eq_some_iff.mpr ⟨cs, rfl, cuts_ident?.cut hds⟩

theorem cuts_readAs? (rule : Rule) : Cuts (readAs? rule) := by
  cases rule with
  | nameAndId => exact cuts_ident?.bind (cuts_marked? '#')
  | id => exact cuts_marked? '#'
  | className => exact cuts_marked? '.'
  | nameAndClass => exact cuts_ident?.bind (cuts_marked? '.')
  | name => exact cuts_ident?
  | pseudoClass => exact cuts_marked? ':'

/-! ### Hits -/

theorem readAs?_of_mem_hitsWithin {n offset : Nat} {cs : List Char} (hn : cs.length ≤ n) {h : Hit}
    (hmem : h ∈ hitsWithin n offset cs) : readAs? h.rule h.text.toList = some [] := by
  -- by induction on the length: a character is passed over, or a token is read
  generalize hlength : cs.length = length
  induction length using Nat.strong_induction_on generalizing n offset cs with
  | _ length ih =>
    cases cs with
    | nil =>
      rw [hitsWithin_nil] at hmem
      cases hmem
    | cons c cs =>
      cases htoken : token? (c :: cs) with
      | none =>
        obtain ⟨m, hm, hgoOn⟩ := hitsWithin_of_none offset hn htoken
        rw [hgoOn] at hmem
        exact ih cs.length (hlength ▸ Nat.lt_succ_self _) hm hmem rfl
      | some token =>
        obtain ⟨rule, rest⟩ := token
        obtain ⟨⟨read, hread, _⟩, hlt⟩ := closed_token? htoken
        obtain ⟨m, hm, hgoOn⟩ := hitsWithin_of_some offset hn htoken
        rw [hgoOn] at hmem
        rcases List.mem_cons.mp hmem with rfl | hmem
        · rw [hread] at htoken ⊢
          rw [hit_append, String.toList_ofList]
          exact (cuts_readAs? rule).alone (readAs?_of_token? htoken)
        · exact ih rest.length (hlength ▸ hlt) hm hmem rfl

/-- **Hits**: the text of a hit is read by the rule of the hit, with nothing left. -/
theorem readAs?_of_mem_hits {text : List Char} {h : Hit} (hmem : h ∈ hits text) :
    readAs? h.rule h.text.toList = some [] :=
  readAs?_of_mem_hitsWithin (Nat.le_refl _) hmem

end TreeQuery.Lexer
