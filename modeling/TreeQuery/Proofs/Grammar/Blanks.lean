import TreeQuery.Proofs.Grammar.Cutting
import TreeQuery.Proofs.Text.Level

/-! # Blanks — what the normal form does to a token

    A blank may belong to a token, either behind a backslash or at the end of a
    hexadecimal escape. A token never goes on with another blank behind such a
    blank, so to level the blanks of its text changes nothing about how it is read.
    A blank at its end may also be dropped, unless a backslash escapes it.

    * **Levelled texts**: a reader that stops in front of a character that is no
      blank stops at the same place in the levelled text.
    * **A space at the end**: what is read with a space at its end is also read
      without it, if the space is not escaped.
    * **Normal forms**: a token is read from its normal form, if the normal form
      does not end in a backslash that escapes what comes next.
-/

namespace TreeQuery.Lexer

open Text (Flush level)

/-! ### Levelled texts -/

theorem isBlank_of_isHexDigit {c : Char} (hc : isHexDigit c = true) : Text.isBlank c = false := by
  rw [← Bool.not_eq_true, isBlank_iff]
  rw [isHexDigit_iff] at hc
  omega

theorem isBlank_of_isNameChar {c : Char} (hc : isNameChar c = true ∨ 0x80 ≤ c.toNat) :
    Text.isBlank c = false := by
  rw [← Bool.not_eq_true, isBlank_iff]
  rw [isNameChar_iff] at hc
  omega

/-- A reader that has started at a place of one kind if it stops at a place of another kind, and
    that does the same on levelled texts. -/
structure Levels (Start Stop : List Char → Prop) (read? : List Char → Option (List Char)) :
    Prop where
  start : ∀ {cs rest}, read? cs = some rest → Stop rest → Start cs
  levelled : ∀ {cs rest}, read? cs = some rest → Stop rest → read? (level cs) = some (level rest)

/-- A reader that reads on behind another. -/
theorem Levels.bind {Start Middle Stop : List Char → Prop}
    {first second : List Char → Option (List Char)} (hfirst : Levels Start Middle first)
    (hsecond : Levels Middle Stop second) : Levels Start Stop fun cs => (first cs).bind second := by
  constructor
  · intro cs rest h hrest
    obtain ⟨m, hm, hread⟩ := Option.bind_eq_some_iff.mp h
    exact hfirst.start hm (hsecond.start hread hrest)
  · intro cs rest h hrest
    obtain ⟨m, hm, hread⟩ := Option.bind_eq_some_iff.mp h
    show (first (level cs)).bind second = _
    rw [hfirst.levelled hm (hsecond.start hread hrest)]
    exact hsecond.levelled hread hrest

theorem afterDigits_level (n : Nat) (cs : List Char) :
    afterDigits n (level cs) = level (afterDigits n cs) := by
  induction n generalizing cs with
  | zero => rfl
  | succ n ih =>
    cases cs with
    | nil => rfl
    | cons c cs =>
      by_cases hc : isHexDigit c = true
      · rw [Text.level_cons (isBlank_of_isHexDigit hc), afterDigits, afterDigits, if_pos hc,
          if_pos hc]
        exact ih cs
      · rw [show afterDigits (n + 1) (c :: cs) = c :: cs from if_neg hc]
        by_cases hblank : Text.isBlank c = true
        · rw [Text.level_blank hblank]
          rfl
        · rw [Text.level_cons (eq_false_of_ne_true hblank)]
          exact if_neg hc

theorem afterBlank_level {cs : List Char} (h : Flush (afterBlank cs)) :
    afterBlank (level cs) = level (afterBlank cs) := by
  have hspace : ∀ ds, afterBlank (' ' :: ds) = ds := fun ds => by
    rw [afterBlank_cons (by simp)]
    rfl
  cases cs with
  | nil => rfl
  | cons c cs =>
    by_cases hc : Text.isBlank c = true
    · rw [Text.level_blank hc, hspace]
      by_cases hpair : c = '\r' ∧ cs.head? = some '\n'
      · obtain ⟨rfl, hhead⟩ := hpair
        obtain ⟨ds, rfl⟩ := List.head?_eq_some_iff.mp hhead
        rw [Text.levelFrom_true_blank rfl]
        exact Text.levelFrom_true_of_flush h
      · rw [afterBlank_cons hpair, if_pos hc] at h ⊢
        exact Text.levelFrom_true_of_flush h
    · have hc' : Text.isBlank c = false := eq_false_of_ne_true hc
      rw [Text.level_cons hc', afterBlank_of_not_blank hc', afterBlank_of_not_blank hc',
        Text.level_cons hc']

theorem escape?_level {cs rest : List Char} (h : escape? cs = some rest) (hrest : Flush rest) :
    escape? (level cs) = some (level rest) := by
  cases cs with
  | nil => cases h
  | cons c cs =>
    rcases escape?_cons_eq_some_iff.mp h with ⟨hc, rfl⟩ | ⟨hc, hline, rfl⟩
    · rw [Text.level_cons (isBlank_of_isHexDigit hc)]
      refine escape?_cons_eq_some_iff.mpr (.inl ⟨hc, ?_⟩)
      rw [afterDigits_level, afterBlank_level hrest]
    · by_cases hblank : Text.isBlank c = true
      · -- an escaped blank becomes an escaped space
        rw [Text.level_blank hblank, Text.levelFrom_true_of_flush hrest]
        rfl
      · rw [Text.level_cons (eq_false_of_ne_true hblank)]
        exact escape?_cons_eq_some_iff.mpr (.inr ⟨hc, hline, rfl⟩)

/-- No unit starts at a blank. -/
theorem flush_of_unit? {plain : Char → Bool} (hplain : ∀ c, plain c = true → isNameChar c = true)
    {cs rest : List Char} (h : unit? plain cs = some rest) : Flush cs := by
  cases cs with
  | nil => cases h
  | cons c cs =>
    refine Text.flush_cons ?_ cs
    rcases unit?_cons_eq_some_iff.mp h with ⟨hc, _⟩ | ⟨_, rfl, _⟩
    · exact isBlank_of_isNameChar (hc.imp_left (hplain c))
    · rfl

theorem levels_unit? {plain : Char → Bool} (hplain : ∀ c, plain c = true → isNameChar c = true) :
    Levels Flush Flush (unit? plain) := by
  constructor
  · intro cs rest h _
    exact flush_of_unit? hplain h
  · intro cs rest h hrest
    cases cs with
    | nil => cases h
    | cons c cs =>
      rw [Text.level_cons (flush_of_unit? hplain h c rfl)]
      rcases unit?_cons_eq_some_iff.mp h with ⟨hc, rfl⟩ | ⟨hc, hbackslash, hescape⟩
      · exact unit?_cons_eq_some_iff.mpr (.inl ⟨hc, rfl⟩)
      · exact unit?_cons_eq_some_iff.mpr (.inr ⟨hc, hbackslash, escape?_level hescape hrest⟩)

/-- The end of a text, or a character that is neither a blank nor a backslash. Where a backslash
    stands in front of the end of a line no unit starts, but one starts there in the levelled
    text. -/
def Bounds (cs : List Char) : Prop := ∀ c, cs.head? = some c → Text.isBlank c = false ∧ c ≠ '\\'

theorem Bounds.flush {cs : List Char} (h : Bounds cs) : Flush cs := fun c hc => (h c hc).1

theorem bounds_nil : Bounds [] := nofun

/-- No unit starts at a bound of the units, nor does one in the levelled text. -/
theorem Bounds.unit?_level {cs : List Char} (h : Bounds cs) (hnone : unit? isNameChar cs = none) :
    unit? isNameChar (level cs) = none := by
  cases cs with
  | nil => rfl
  | cons c cs =>
    obtain ⟨hblank, hbackslash⟩ := h c rfl
    rw [Text.level_cons hblank]
    by_cases hc : isNameChar c = true ∨ 0x80 ≤ c.toNat
    · rw [unit?_cons_eq_some_iff.mpr (.inl ⟨hc, rfl⟩)] at hnone
      cases hnone
    · simp only [unit?, Bool.or_eq_true, decide_eq_true_eq]
      rw [if_neg hc, if_neg hbackslash]

theorem levels_afterUnits : Levels Flush Bounds fun cs => some (afterUnits cs) := by
  have hflush : ∀ cs, Bounds (afterUnits cs) → Flush cs := by
    intro cs hrest
    cases hunit : unit? isNameChar cs with
    | none =>
      rw [afterUnits_of_none hunit] at hrest
      exact hrest.flush
    | some m => exact flush_of_unit? (fun _ hc => hc) hunit
  constructor
  · intro cs rest h hrest
    obtain rfl := Option.some.inj h
    exact hflush cs hrest
  · intro cs rest h hrest
    obtain rfl := Option.some.inj h
    refine congrArg some ?_
    clear h
    -- behind the first unit the levelled text goes on levelled
    induction cs using units_induction with
    | stop cs hunit =>
      rw [afterUnits_of_none hunit] at hrest ⊢
      exact afterUnits_of_none (hrest.unit?_level hunit)
    | unit cs m hunit ih =>
      rw [afterUnits_of_some hunit] at hrest ⊢
      have hlevel := (levels_unit? fun _ hc => hc).levelled hunit (hflush m hrest)
      rw [afterUnits_of_some hlevel]
      exact ih hrest

theorem levels_afterSign : Levels Flush Flush fun cs => some (afterSign cs) := by
  have hsign : ∀ {c : Char}, c = '-' ∨ c = '@' → Text.isBlank c = false := by
    intro c hc
    rcases hc with rfl | rfl
    · rfl
    · rfl
  constructor
  · intro cs rest h hrest
    obtain rfl := Option.some.inj h
    cases cs with
    | nil => exact Text.flush_nil
    | cons c cs =>
      by_cases hc : c = '-' ∨ c = '@'
      · exact Text.flush_cons (hsign hc) cs
      · rwa [show afterSign (c :: cs) = c :: cs from if_neg hc] at hrest
  · intro cs rest h _
    obtain rfl := Option.some.inj h
    refine congrArg some ?_
    cases cs with
    | nil => rfl
    | cons c cs =>
      by_cases hc : c = '-' ∨ c = '@'
      · rw [Text.level_cons (hsign hc), afterSign, afterSign, if_pos hc, if_pos hc]
      · rw [show afterSign (c :: cs) = c :: cs from if_neg hc]
        by_cases hblank : Text.isBlank c = true
        · rw [Text.level_blank hblank]
          rfl
        · rw [Text.level_cons (eq_false_of_ne_true hblank)]
          exact if_neg hc

theorem levels_ident? : Levels Flush Bounds ident? := by
  have hunits : Levels Flush Bounds fun cs => (unit? isNameStart cs).map afterUnits := by
    simp only [Option.map_eq_bind]
    exact (levels_unit? fun _ hc => isNameChar_of_isNameStart hc).bind levels_afterUnits
  exact levels_afterSign.bind hunits

theorem levels_marked? {marker : Char} (hblank : Text.isBlank marker = false)
    (hbackslash : marker ≠ '\\') : Levels Bounds Bounds (marked? marker) := by
  constructor
  · intro cs rest h _
    obtain ⟨ds, rfl, _⟩ := marked?_eq_some_iff.mp h
    intro c hc
    rw [← Option.some.inj hc]
    exact ⟨hblank, hbackslash⟩
  · intro cs rest h hrest
    obtain ⟨ds, rfl, hds⟩ := marked?_eq_some_iff.mp h
    rw [Text.level_cons hblank]
    exact marked?_eq_some_iff.mpr ⟨level ds, rfl, levels_ident?.levelled hds hrest⟩

theorem levels_readAs? (rule : Rule) : Levels Flush Bounds (readAs? rule) := by
  have hmarked : ∀ marker, Text.isBlank marker = false → marker ≠ '\\' →
      Levels Flush Bounds (marked? marker) := by
    intro marker hblank hbackslash
    have h := levels_marked? hblank hbackslash
    exact ⟨fun hread hrest => (h.start hread hrest).flush, h.levelled⟩
  cases rule with
  | nameAndId => exact levels_ident?.bind (levels_marked? rfl (by decide))
  | id => exact hmarked '#' rfl (by decide)
  | className => exact hmarked '.' rfl (by decide)
  | nameAndClass => exact levels_ident?.bind (levels_marked? rfl (by decide))
  | name => exact levels_ident?
  | pseudoClass => exact hmarked ':' rfl (by decide)

/-! ### A space at the end -/

/-- A reader that takes what it takes with a space at the end also without it, unless a backslash
    escapes the space. -/
def Trims (read? : List Char → Option (List Char)) : Prop :=
  ∀ cs, read? (cs ++ [' ']) = some [] → isEscaping cs = false → read? cs = some []

/-- A reader either takes the space at the end, or leaves it at the end of what it leaves. -/
theorem Trims.exists_of_append_space {read? : List Char → Option (List Char)}
    (htrims : Trims read?) (hcuts : Cuts read?)
    (hclosed : ∀ {cs rest}, read? cs = some rest → Closed cs rest) {cs rest : List Char}
    (h : read? (cs ++ [' ']) = some rest) (hcs : isEscaping cs = false) :
    (rest = [] ∧ read? cs = some []) ∨
      ∃ front, rest = front ++ [' '] ∧ read? cs = some front ∧ isEscaping front = false := by
  obtain ⟨read, htext, hread⟩ := hclosed h
  rcases List.eq_nil_or_concat rest with rfl | ⟨front, c, rfl⟩
  · exact .inl ⟨rfl, htrims cs h hcs⟩
  · rw [List.concat_eq_append] at h htext ⊢
    rw [← List.append_assoc] at htext
    obtain ⟨rfl, hspace⟩ := List.append_inj' htext rfl
    obtain rfl : ' ' = c := List.singleton_inj.mp hspace
    rw [isEscaping_append hread] at hcs
    exact .inr ⟨front, rfl, hcuts.cut h, hcs⟩

/-- A reader that reads on behind another. -/
theorem Trims.bind {first second : List Char → Option (List Char)} (hfirst : Trims first)
    (hsecond : Trims second) (hcuts : Cuts first)
    (hclosed : ∀ {cs rest}, first cs = some rest → Closed cs rest) :
    Trims fun cs => (first cs).bind second := by
  intro cs h hcs
  obtain ⟨m, hm, hread⟩ := Option.bind_eq_some_iff.mp h
  show (first cs).bind second = some []
  -- the first reader takes the space and leaves nothing, or hands it on to the second
  rcases hfirst.exists_of_append_space hcuts hclosed hm hcs with
    ⟨rfl, hall⟩ | ⟨front, rfl, hfront, hescaping⟩
  · rw [hall]
    exact hread
  · rw [hfront]
    exact hsecond front hread hescaping

/-- A space ends the digits of an escape. -/
theorem afterDigits_append_space (n : Nat) (cs : List Char) :
    afterDigits n (cs ++ [' ']) = afterDigits n cs ++ [' '] := by
  induction n generalizing cs with
  | zero => rfl
  | succ n ih =>
    cases cs with
    | nil => rfl
    | cons c cs =>
      simp only [List.cons_append, afterDigits]
      by_cases hc : isHexDigit c = true
      · rw [if_pos hc, if_pos hc]
        exact ih cs
      · rw [if_neg hc, if_neg hc]
        rfl

/-- Only one blank is passed over, so it is the space at the end only if nothing else is there. -/
theorem eq_nil_of_afterBlank_append_space {cs : List Char} (h : afterBlank (cs ++ [' ']) = []) :
    cs = [] := by
  match cs with
  | [] => rfl
  | [c] =>
    exfalso
    simp only [List.singleton_append, afterBlank] at h
    rw [if_neg (by rintro ⟨_, hspace⟩; cases hspace)] at h
    by_cases hc : Text.isBlank c = true
    · rw [if_pos hc] at h
      cases h
    · rw [if_neg hc] at h
      cases h
  | c :: d :: cs =>
    exfalso
    simp only [List.cons_append, afterBlank] at h
    by_cases hpair : c = '\r' ∧ d = '\n'
    · rw [if_pos hpair] at h
      exact absurd h (by simp)
    · rw [if_neg hpair] at h
      by_cases hc : Text.isBlank c = true
      · rw [if_pos hc] at h
        cases h
      · rw [if_neg hc] at h
        cases h

theorem trims_unit? {plain : Char → Bool} (hplain : ∀ c, plain c = true → isNameChar c = true) :
    Trims (unit? plain) := by
  intro cs h hcs
  cases cs with
  | nil => cases flush_of_unit? hplain h ' ' rfl
  | cons c cs =>
    rw [List.cons_append] at h
    rcases unit?_cons_eq_some_iff.mp h with ⟨_, hnil⟩ | ⟨hc, rfl, hescape⟩
    · exact absurd hnil (by simp)
    · cases cs with
      | nil => cases hcs
      | cons d ds =>
        rw [List.cons_append] at hescape
        refine unit?_cons_eq_some_iff.mpr (.inr ⟨hc, rfl, ?_⟩)
        rcases escape?_cons_eq_some_iff.mp hescape with ⟨hd, hread⟩ | ⟨_, _, hnil⟩
        · -- the space belongs to the escape, which is complete without it
          rw [afterDigits_append_space] at hread
          refine escape?_cons_eq_some_iff.mpr (.inl ⟨hd, ?_⟩)
          rw [eq_nil_of_afterBlank_append_space hread]
          rfl
        · exact absurd hnil (by simp)

theorem trims_afterUnits : Trims fun cs => some (afterUnits cs) := by
  intro cs h hcs
  have hnil : afterUnits (cs ++ [' ']) = [] := Option.some.inj h
  refine congrArg some ?_
  clear h
  -- the first unit takes the space, or leaves it to the others
  generalize htext : cs ++ [' '] = text at hnil
  induction text using units_induction generalizing cs with
  | stop text hunit =>
    rw [afterUnits_of_none hunit, ← htext] at hnil
    exact absurd hnil (by simp)
  | unit text m hunit ih =>
    rw [afterUnits_of_some hunit] at hnil
    rw [← htext] at hunit
    have htrims : Trims (unit? isNameChar) := trims_unit? fun _ hc => hc
    rcases htrims.exists_of_append_space (cuts_unit? asciiPlain_isNameChar)
        (fun h => (closed_unit? asciiPlain_isNameChar h).1) hunit hcs with
      ⟨rfl, hall⟩ | ⟨front, rfl, hfront, hescaping⟩
    · rw [afterUnits_of_some hall]
      rfl
    · rw [afterUnits_of_some hfront]
      exact ih front hescaping rfl hnil

theorem trims_afterSign : Trims fun cs => some (afterSign cs) := by
  intro cs h _
  have hnil : afterSign (cs ++ [' ']) = [] := Option.some.inj h
  -- a sign is never the space at the end, so this cannot be
  exfalso
  cases cs with
  | nil => cases hnil
  | cons c cs =>
    simp only [List.cons_append, afterSign] at hnil
    by_cases hc : c = '-' ∨ c = '@'
    · rw [if_pos hc] at hnil
      exact absurd hnil (by simp)
    · rw [if_neg hc] at hnil
      cases hnil

theorem trims_ident? : Trims ident? := by
  have hunits : Trims fun cs => (unit? isNameStart cs).map afterUnits := by
    simp only [Option.map_eq_bind]
    exact (trims_unit? fun _ hc => isNameChar_of_isNameStart hc).bind trims_afterUnits
      (cuts_unit? asciiPlain_isNameStart) fun h => (closed_unit? asciiPlain_isNameStart h).1
  refine trims_afterSign.bind hunits cuts_afterSign ?_
  intro cs rest h
  obtain rfl := Option.some.inj h
  exact closed_afterSign cs

theorem trims_marked? {marker : Char} (hblank : marker ≠ ' ') (hbackslash : marker ≠ '\\') :
    Trims (marked? marker) := by
  intro cs h hcs
  obtain ⟨ds, htext, hds⟩ := marked?_eq_some_iff.mp h
  cases cs with
  | nil => exact absurd (List.cons.inj htext).1.symm hblank
  | cons c cs =>
    obtain ⟨rfl, rfl⟩ := List.cons.inj htext
    refine marked?_eq_some_iff.mpr ⟨cs, rfl, trims_ident? cs hds ?_⟩
    have hclosed : isEscaping [c] = false := beq_false_of_ne hbackslash
    exact (isEscaping_append hclosed cs).symm.trans hcs

theorem trims_readAs? (rule : Rule) : Trims (readAs? rule) := by
  have hcompound : ∀ marker, marker ≠ ' ' → marker ≠ '\\' →
      Trims fun cs => (ident? cs).bind (marked? marker) :=
    fun marker hblank hbackslash => trims_ident?.bind (trims_marked? hblank hbackslash)
      cuts_ident? fun h => (closed_ident? h).1
  cases rule with
  | nameAndId => exact hcompound '#' (by decide) (by decide)
  | id => exact trims_marked? (by decide) (by decide)
  | className => exact trims_marked? (by decide) (by decide)
  | nameAndClass => exact hcompound '.' (by decide) (by decide)
  | name => exact trims_ident?
  | pseudoClass => exact trims_marked? (by decide) (by decide)

/-! ### Normal forms -/

/-- What a rule reads as a whole it also reads as a whole in its normal form, if the normal form
    does not end in a backslash that escapes what comes next. -/
theorem readAs?_normalForm {rule : Rule} {cs : List Char} (h : readAs? rule cs = some [])
    (hescaping : isEscaping (Text.normalForm cs) = false) :
    readAs? rule (Text.normalForm cs) = some [] := by
  have hflush := (levels_readAs? rule).start h bounds_nil
  have hlevel := (levels_readAs? rule).levelled h bounds_nil
  rcases Text.level_eq_or hflush with hnormal | hnormal
  · rw [hnormal] at hlevel
    exact hlevel
  · rw [hnormal] at hlevel
    exact trims_readAs? rule _ hlevel hescaping

/-! ### Backslashes at the end -/

theorem isEscaping_concat_of_ne {c : Char} (hc : c ≠ '\\') (cs : List Char) :
    isEscaping (cs ++ [c]) = false := by
  rw [isEscaping_concat, beq_false_of_ne hc, Bool.and_false]

/-- To level the blanks of a text does not change how the text ends. -/
theorem isEscaping_levelFrom (cs : List Char) :
    isEscaping (Text.levelFrom true cs) = isEscaping cs := by
  -- the state behind a blank is the same, whatever it was in front of it
  have hboth : ∀ (behindBlank escaped : Bool), (behindBlank = true → escaped = false) →
      escapesNext escaped (Text.levelFrom behindBlank cs) = escapesNext escaped cs := by
    induction cs with
    | nil => exact fun _ _ _ => rfl
    | cons c cs ih =>
      intro behindBlank escaped hescaped
      rw [Text.levelFrom, escapesNext_cons]
      by_cases hc : Text.isBlank c = true
      · have hne : c ≠ '\\' := by
          rintro rfl
          cases hc
        rw [if_pos hc, beq_false_of_ne hne, Bool.and_false]
        by_cases hbehind : behindBlank = true
        · rw [if_pos hbehind, hescaped hbehind]
          exact ih true false fun _ => rfl
        · rw [if_neg hbehind, escapesNext_cons, beq_false_of_ne (by decide), Bool.and_false]
          exact ih true false fun _ => rfl
      · rw [if_neg hc, escapesNext_cons]
        exact ih false _ fun hfalse => absurd hfalse Bool.false_ne_true
  exact hboth true false fun _ => rfl

/-- A text with blanks at its end, or none, in front of which a backslash escapes what comes
    next. -/
def EndsEscaped (cs : List Char) : Prop :=
  ∃ before blanks, cs = before ++ blanks ∧ Text.AllBlank blanks ∧ isEscaping before = true

/-- The normal form of a text ends in a backslash that escapes what comes next iff the text does so
    in front of the blanks at its end. -/
theorem isEscaping_normalForm_iff {cs : List Char} :
    isEscaping (Text.normalForm cs) = true ↔ EndsEscaped cs := by
  have hspace : ∀ front, isEscaping (front ++ [' ']) = false :=
    isEscaping_concat_of_ne (by decide)
  constructor
  · intro h
    obtain ⟨core, blanks, rfl, hblanks, hcore⟩ := Text.exists_core cs
    refine ⟨core, blanks, rfl, hblanks, ?_⟩
    rw [Text.normalForm, Text.words_append_allBlank core hblanks] at h
    rw [← isEscaping_levelFrom]
    rcases (Text.levelsTo_behind core).1 with hlevel | ⟨_, hlevel⟩
    · rw [hlevel]
      exact h
    · -- what is no blank stays at the end, so no space is there
      exfalso
      rcases List.eq_nil_or_concat core with rfl | ⟨front, c, rfl⟩
      · cases hlevel
      · rw [List.concat_eq_append] at hlevel hcore
        have hc := hcore front c rfl
        rw [Text.levelFrom_concat hc] at hlevel
        obtain rfl : c = ' ' := List.singleton_inj.mp (List.append_inj' hlevel rfl).2
        cases hc
  · rintro ⟨before, blanks, rfl, hblanks, hbefore⟩
    rw [Text.normalForm, Text.words_append_allBlank before hblanks]
    rw [← isEscaping_levelFrom] at hbefore
    rcases (Text.levelsTo_behind before).1 with hlevel | ⟨_, hlevel⟩
    · rw [hlevel] at hbefore
      exact hbefore
    · rw [hlevel, hspace] at hbefore
      cases hbefore

end TreeQuery.Lexer
