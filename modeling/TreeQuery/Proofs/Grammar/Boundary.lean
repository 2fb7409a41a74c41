import TreeQuery.Proofs.Grammar.Scan
import TreeQuery.Proofs.Text.Words

/-! # Boundaries — where one token ends and a blank follows

    A token that stands alone is read the same way with a blank behind it, unless
    it ends in a hexadecimal escape, to which the blank would belong. The argument
    goes from units to identifiers to tokens. If what is left of a token ends in a
    hexadecimal escape then so does the token, because no unit stops behind a
    backslash that escapes the next character.
-/

namespace TreeQuery.Lexer

/-! ### Escapes -/

/-- A text that ends in a hexadecimal escape: an unescaped backslash and one to six hexadecimal
    digits. -/
def EndsInCode (cs : List Char) : Prop :=
  ∃ before digits, cs = before ++ '\\' :: digits ∧ isEscaping before = false ∧ digits ≠ [] ∧
    digits.length ≤ 6 ∧ ∀ d ∈ digits, isHexDigit d = true

theorem endsInCode_iff {cs : List Char} :
    EndsInCode cs ↔ ∃ n < cs.length, cs[n]? = some '\\' ∧ isEscaping (cs.take n) = false ∧
      cs.drop (n + 1) ≠ [] ∧ (cs.drop (n + 1)).length ≤ 6 ∧
      (cs.drop (n + 1)).all isHexDigit = true := by
  unfold EndsInCode
  simp only [List.all_eq_true]
  constructor
  · rintro ⟨before, digits, rfl, hbefore, hdigits⟩
    refine ⟨before.length, ?_, ?_, ?_, ?_⟩
    · rw [List.length_append, List.length_cons]
      omega
    · rw [List.getElem?_append_right (Nat.le_refl _), Nat.sub_self]
      rfl
    · rwa [List.take_left']
      rfl
    · have hdrop : (before ++ '\\' :: digits).drop (before.length + 1) = digits := by
        rw [← List.drop_drop, List.drop_left']
        · rfl
        · rfl
      rwa [hdrop]
  · rintro ⟨n, hn, hget, hbefore, hdigits⟩
    refine ⟨cs.take n, cs.drop (n + 1), ?_, hbefore, hdigits⟩
    have hchar : cs[n] = '\\' := by
      rwa [List.getElem?_eq_getElem hn, Option.some.injEq] at hget
    rw [← hchar, List.getElem_cons_drop, List.take_append_drop]

instance : DecidablePred EndsInCode := fun _ => decidable_of_iff _ endsInCode_iff.symm

theorem EndsInCode.append {cs read : List Char} (h : EndsInCode cs)
    (hread : isEscaping read = false) : EndsInCode (read ++ cs) := by
  obtain ⟨before, digits, rfl, hbefore, hdigits⟩ := h
  refine ⟨read ++ before, digits, (List.append_assoc ..).symm, ?_, hdigits⟩
  rw [isEscaping_append hread, hbefore]

theorem Closed.endsInCode {cs rest : List Char} (h : Closed cs rest) (hrest : EndsInCode rest) :
    EndsInCode cs := by
  obtain ⟨read, rfl, hread⟩ := h
  exact hrest.append hread

/-! ### Reading on -/

theorem afterDigits_append {n : Nat} {cs : List Char} (h : afterDigits n cs ≠ [])
    (more : List Char) : afterDigits n (cs ++ more) = afterDigits n cs ++ more := by
  induction n generalizing cs with
  | zero => rfl
  | succ n ih =>
    cases cs with
    | nil => exact absurd rfl h
    | cons c cs =>
      simp only [List.cons_append, afterDigits] at h ⊢
      by_cases hc : isHexDigit c = true
      · rw [if_pos hc] at h ⊢
        rw [if_pos hc]
        exact ih h
      · rw [if_neg hc, if_neg hc, List.cons_append]

theorem of_afterDigits_eq_nil {n : Nat} {cs : List Char} (h : afterDigits n cs = []) :
    cs.length ≤ n ∧ ∀ d ∈ cs, isHexDigit d = true := by
  induction n generalizing cs with
  | zero =>
    obtain rfl : cs = [] := h
    exact ⟨Nat.le_refl 0, fun d hd => absurd hd List.not_mem_nil⟩
  | succ n ih =>
    cases cs with
    | nil => exact ⟨Nat.zero_le _, fun d hd => absurd hd List.not_mem_nil⟩
    | cons c cs =>
      simp only [afterDigits] at h
      by_cases hc : isHexDigit c = true
      · rw [if_pos hc] at h
        obtain ⟨hlength, hdigits⟩ := ih h
        refine ⟨Nat.succ_le_succ hlength, fun d hd => ?_⟩
        rcases List.mem_cons.mp hd with rfl | hd
        · exact hc
        · exact hdigits d hd
      · rw [if_neg hc] at h
        cases h

section

variable {cs rest : List Char} (hcs : Text.NoBlank cs) (more : List Char)

include hcs

/-- A unit is read the same way with more behind it, unless it is a hexadecimal escape that ends
    where the text did. -/
theorem unit?_append {plain : Char → Bool} (h : unit? plain cs = some rest)
    (hopen : rest = [] → ¬EndsInCode cs) : unit? plain (cs ++ more) = some (rest ++ more) := by
  cases cs with
  | nil => cases h
  | cons c cs =>
    rw [List.cons_append]
    rcases unit?_cons_eq_some_iff.mp h with ⟨hc, rfl⟩ | ⟨hc, rfl, hescape⟩
    · exact unit?_cons_eq_some_iff.mpr (.inl ⟨hc, rfl⟩)
    · refine unit?_cons_eq_some_iff.mpr (.inr ⟨hc, rfl, ?_⟩)
      cases cs with
      | nil => cases hescape
      | cons d ds =>
        rw [List.cons_append]
        rcases escape?_cons_eq_some_iff.mp hescape with ⟨hd, hrest⟩ | ⟨hd, hline, rfl⟩
        · refine escape?_cons_eq_some_iff.mpr (.inl ⟨hd, ?_⟩)
          cases hdigits : afterDigits 5 ds with
          | nil =>
            -- the digits reach the end of the text, which was ruled out
            obtain ⟨hlength, hall⟩ := of_afterDigits_eq_nil hdigits
            rw [hdigits] at hrest
            refine absurd ⟨[], d :: ds, rfl, rfl, List.cons_ne_nil d ds, ?_, ?_⟩
              (hopen hrest.symm)
            · exact Nat.succ_le_succ hlength
            · intro x hx
              rcases List.mem_cons.mp hx with rfl | hx
              · exact hd
              · exact hall x hx
          | cons x xs =>
            -- the digits stop at a character that is no blank, and nothing else is taken
            have hmem : x ∈ ds :=
              (closed_afterDigits 5 ds).suffix.subset (hdigits ▸ List.mem_cons_self)
            have hx := hcs x (List.mem_cons_of_mem _ (List.mem_cons_of_mem _ hmem))
            have hne : afterDigits 5 ds ≠ [] := by
              rw [hdigits]
              exact List.cons_ne_nil x xs
            rw [afterDigits_append hne, hdigits, List.cons_append, afterBlank_of_not_blank hx]
            rw [hdigits, afterBlank_of_not_blank hx] at hrest
            rw [← hrest, List.cons_append]
        · exact escape?_cons_eq_some_iff.mpr (.inr ⟨hd, hline, rfl⟩)

/-- The units are read the same way with something behind them at which no unit starts. -/
theorem afterUnits_append (hopen : afterUnits cs = [] → ¬EndsInCode cs)
    (hstop : unit? isNameChar (afterUnits cs ++ more) = none) :
    afterUnits (cs ++ more) = afterUnits cs ++ more := by
  induction cs using units_induction with
  | stop cs hunit =>
    rw [afterUnits_of_none hunit] at hstop ⊢
    exact afterUnits_of_none hstop
  | unit cs rest hunit ih =>
    have hclosed := (closed_unit? asciiPlain_isNameChar hunit).1
    rw [afterUnits_of_some hunit] at hopen hstop ⊢
    have hread := unit?_append hcs more hunit fun hrest => hopen (by rw [hrest]; rfl)
    rw [afterUnits_of_some hread]
    exact ih (hcs.of_suffix hclosed.suffix)
      (fun hnil hcode => hopen hnil (hclosed.endsInCode hcode)) hstop

theorem ident?_append (h : ident? cs = some rest) (hopen : rest = [] → ¬EndsInCode cs)
    (hstop : unit? isNameChar (rest ++ more) = none) :
    ident? (cs ++ more) = some (rest ++ more) := by
  obtain ⟨m, hm, rfl⟩ := Option.map_eq_some_iff.mp h
  have hsign : afterSign (cs ++ more) = afterSign cs ++ more := by
    cases cs with
    | nil => cases hm
    | cons c cs =>
      simp only [List.cons_append, afterSign]
      by_cases hc : c = '-' ∨ c = '@'
      · rw [if_pos hc, if_pos hc]
      · rw [if_neg hc, if_neg hc, List.cons_append]
  have hclosedSign := closed_afterSign cs
  have hclosed := hclosedSign.trans (closed_unit? asciiPlain_isNameStart hm).1
  have hunit := unit?_append (hcs.of_suffix hclosedSign.suffix) more hm fun hnil hcode =>
    hopen (by rw [hnil]; rfl) (hclosedSign.endsInCode hcode)
  have hunits := afterUnits_append (hcs.of_suffix hclosed.suffix) more
    (fun hnil hcode => hopen hnil (hclosed.endsInCode hcode)) hstop
  unfold ident?
  rw [hsign, hunit, Option.map_some, hunits]

theorem marked?_append {marker : Char} (hmarker : marker ≠ '\\')
    (h : marked? marker cs = some []) (hcode : ¬EndsInCode cs)
    (hstop : unit? isNameChar more = none) : marked? marker (cs ++ more) = some more := by
  obtain ⟨ds, rfl, hds⟩ := marked?_eq_some_iff.mp h
  refine marked?_eq_some_iff.mpr ⟨ds ++ more, rfl, ?_⟩
  exact ident?_append (fun d hd => hcs d (List.mem_cons_of_mem _ hd)) more hds
    (fun _ hends => hcode ((Closed.cons hmarker ds).endsInCode hends)) hstop

/-- A token that takes a whole text without blanks is read the same way with something behind it
    at which no unit starts, unless the text ends in a hexadecimal escape. -/
theorem readAs?_append {rule : Rule} (h : readAs? rule cs = some []) (hcode : ¬EndsInCode cs)
    (hstop : unit? isNameChar more = none) : readAs? rule (cs ++ more) = some more := by
  have hcompound : ∀ marker, marker = '#' ∨ marker = '.' →
      (ident? cs).bind (marked? marker) = some [] →
      (ident? (cs ++ more)).bind (marked? marker) = some more := by
    intro marker hmarker h
    obtain ⟨m, hm, hmarked⟩ := Option.bind_eq_some_iff.mp h
    obtain ⟨hclosed, _⟩ := closed_ident? hm
    obtain ⟨ds, rfl, _⟩ := marked?_eq_some_iff.mp hmarked
    have hbackslash : marker ≠ '\\' := by
      rcases hmarker with rfl | rfl <;> decide
    -- the first identifier stops at the marker, whatever stands behind
    have hfirst : ident? (cs ++ more) = some (marker :: ds ++ more) := by
      refine ident?_append hcs more hm (fun hnil => absurd hnil (List.cons_ne_nil marker ds)) ?_
      rcases hmarker with rfl | rfl <;> rfl
    rw [hfirst]
    exact marked?_append (hcs.of_suffix hclosed.suffix) more hbackslash hmarked
      (fun hends => hcode (hclosed.endsInCode hends)) hstop
  cases rule with
  | nameAndId => exact hcompound '#' (.inl rfl) h
  | id => exact marked?_append hcs more (by decide) h hcode hstop
  | className => exact marked?_append hcs more (by decide) h hcode hstop
  | nameAndClass => exact hcompound '.' (.inr rfl) h
  | name =>
    show ident? (cs ++ more) = some more
    exact ident?_append hcs more h (fun _ => hcode) hstop
  | pseudoClass => exact marked?_append hcs more (by decide) h hcode hstop

end

/-! ### Tokens -/

theorem token?_of_ident? {cs rest : List Char} (h : ident? cs = some rest) :
    token? cs = some (compound rest) := by
  cases cs with
  | nil => cases h
  | cons c cs =>
    have hmarker : ¬(c = '#' ∨ c = '.' ∨ c = ':') := by
      intro hc
      rw [ident?_of_marker hc] at h
      cases h
    simp only [not_or] at hmarker
    simp only [token?]
    rw [if_neg hmarker.1, if_neg hmarker.2.1, if_neg hmarker.2.2, h]
    rfl

/-- What a rule reads is the token, if no marker follows. -/
theorem token?_of_readAs? {rule : Rule} {cs rest : List Char} (h : readAs? rule cs = some rest)
    (hhash : marked? '#' rest = none) (hdot : marked? '.' rest = none) :
    token? cs = some (rule, rest) := by
  have hmarked : ∀ marker r, (∀ ds, token? (marker :: ds) = (ident? ds).map fun rest => (r, rest)) →
      marked? marker cs = some rest → token? cs = some (r, rest) := by
    intro marker r htoken h
    obtain ⟨ds, rfl, hds⟩ := marked?_eq_some_iff.mp h
    rw [htoken, hds]
    rfl
  cases rule with
  | nameAndId =>
    obtain ⟨m, hm, hread⟩ := Option.bind_eq_some_iff.mp h
    rw [token?_of_ident? hm]
    unfold compound
    rw [hread]
  | id => exact hmarked '#' .id (fun ds => rfl) h
  | className => exact hmarked '.' .className (fun ds => rfl) h
  | nameAndClass =>
    obtain ⟨m, hm, hread⟩ := Option.bind_eq_some_iff.mp h
    obtain ⟨ds, rfl, _⟩ := marked?_eq_some_iff.mp hread
    have hother : marked? '#' ('.' :: ds) = none := rfl
    rw [token?_of_ident? hm]
    unfold compound
    rw [hother, hread]
  | name =>
    rw [token?_of_ident? h]
    unfold compound
    rw [hhash, hdot]
  | pseudoClass => exact hmarked ':' .pseudoClass (fun ds => rfl) h

end TreeQuery.Lexer
