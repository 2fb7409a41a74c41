import Mathlib.Data.List.Infix
import TreeQuery.Grammar.Scanner
import TreeQuery.Text.Blank

/-! # A lexer for selectors — reading without going back

    The lexer reads a selector from left to right and never takes a decision back.
    Each of its functions answers what it leaves of the text.

    * **Units**: a name character, a character beyond ASCII, or an escape. The
      hexadecimal digits of an escape are taken as long as there are any, but at
      most six, and a blank behind them belongs to the escape.
    * **Identifiers**: a sign or none, a unit that may stand at the start, and then
      as many units as possible.
    * **Tokens**: a marker in front of an identifier, or an identifier and perhaps a
      marker and another identifier.
    * **What is left**: every function leaves a tail of its text, and never stops
      between a backslash and the character that the backslash escapes.
-/

namespace TreeQuery.Lexer

/-! ### Characters -/

/-- An ASCII letter, a digit, an underscore or a hyphen. -/
def isNameChar (c : Char) : Bool := c.isAlphanum || c == '_' || c == '-'

/-- A name character that may stand at the start: no digit and no hyphen. -/
def isNameStart (c : Char) : Bool := c.isAlpha || c == '_'

/-- A hexadecimal digit. -/
def isHexDigit (c : Char) : Bool :=
  c.isDigit || ('a' ≤ c && c ≤ 'f') || ('A' ≤ c && c ≤ 'F')

/-- A character that ends a line, which cannot be escaped. -/
def endsLine (c : Char) : Bool := c == '\n' || c == '\r' || c == '\x0c'

/-! ### Units -/

/-- Passes over hexadecimal digits, at most as many as given. -/
def afterDigits : Nat → List Char → List Char
  | 0, cs => cs
  | _ + 1, [] => []
  | n + 1, c :: cs => if isHexDigit c then afterDigits n cs else c :: cs

/-- Passes over one blank if there is one. A carriage return and a line feed count as one. -/
def afterBlank : List Char → List Char
  | [] => []
  | [c] => if Text.isBlank c then [] else [c]
  | c :: d :: cs =>
    if c = '\r' ∧ d = '\n' then cs else if Text.isBlank c then d :: cs else c :: d :: cs

/-- Passes over the rest of an escape behind its backslash. -/
def escape? : List Char → Option (List Char)
  | [] => none
  | c :: cs =>
    if isHexDigit c then some (afterBlank (afterDigits 5 cs))
    else if endsLine c then none else some cs

/-- Passes over one unit, given which ASCII characters may stand for themselves. -/
def unit? (plain : Char → Bool) : List Char → Option (List Char)
  | [] => none
  | c :: cs =>
    if plain c || 0x80 ≤ c.toNat then some cs
    else if c = '\\' then escape? cs else none

/-- Passes over as many units as possible, but at most as many as given. -/
def afterUnitsWithin : Nat → List Char → List Char
  | 0, cs => cs
  | n + 1, cs =>
    match unit? isNameChar cs with
    | none => cs
    | some rest => afterUnitsWithin n rest

/-- Passes over as many units as possible. -/
def afterUnits (cs : List Char) : List Char := afterUnitsWithin cs.length cs

/-! ### Identifiers and tokens -/

/-- Passes over a sign if there is one. -/
def afterSign : List Char → List Char
  | [] => []
  | c :: cs => if c = '-' ∨ c = '@' then cs else c :: cs

/-- Passes over an identifier. -/
def ident? (cs : List Char) : Option (List Char) :=
  (unit? isNameStart (afterSign cs)).map afterUnits

/-- Passes over a marker and an identifier. -/
def marked? (marker : Char) : List Char → Option (List Char)
  | [] => none
  | c :: cs => if c = marker then ident? cs else none

/-- The rule of a token that starts with an identifier, and what the token leaves, given what the
    identifier leaves. -/
def compound (rest : List Char) : Rule × List Char :=
  match marked? '#' rest with
  | some last => (.nameAndId, last)
  | none =>
    match marked? '.' rest with
    | some last => (.nameAndClass, last)
    | none => (.name, rest)

/-- The rule of the token at the start of a text, and what it leaves of the text. -/
def token? : List Char → Option (Rule × List Char)
  | [] => none
  | c :: cs =>
    if c = '#' then (ident? cs).map fun rest => (.id, rest)
    else if c = '.' then (ident? cs).map fun rest => (.className, rest)
    else if c = ':' then (ident? cs).map fun rest => (.pseudoClass, rest)
    else (ident? (c :: cs)).map compound

/-- What a token of a given rule leaves of a text, whether or not another rule comes first. -/
def readAs? : Rule → List Char → Option (List Char)
  | .nameAndId, cs => (ident? cs).bind (marked? '#')
  | .id, cs => marked? '#' cs
  | .className, cs => marked? '.' cs
  | .nameAndClass, cs => (ident? cs).bind (marked? '.')
  | .name, cs => ident? cs
  | .pseudoClass, cs => marked? ':' cs

/-! ### Hits -/

/-- A hit at an offset, given the text there and what is left behind the hit. -/
def hit (offset : Nat) (cs : List Char) (rule : Rule) (rest : List Char) : Hit :=
  let text := cs.take (cs.length - rest.length)
  ⟨String.ofList text, offset, offset + Text.byteLength text, rule⟩

/-- The hits in the rest of a text that starts at an offset, trying at most the given number of
    starts. A character at which no token starts is passed over. -/
def hitsWithin : Nat → Nat → List Char → List Hit
  | 0, _, _ => []
  | _ + 1, _, [] => []
  | n + 1, offset, c :: cs =>
    match token? (c :: cs) with
    | none => hitsWithin n (offset + c.utf8Size) cs
    | some (rule, rest) =>
      let hit := hit offset (c :: cs) rule rest
      hit :: hitsWithin n hit.stop rest

/-- The hits in a text, from left to right. Each start passes over a character at least, so the
    length of the text is enough. -/
def hits (text : List Char) : List Hit := hitsWithin text.length 0 text

/-! ### Characters -/

theorem char_le_iff {c d : Char} : c ≤ d ↔ c.toNat ≤ d.toNat := by
  rw [Char.le_def, UInt32.le_iff_toNat_le]
  rfl

theorem char_eq_iff {c d : Char} : c = d ↔ c.toNat = d.toNat := Char.toNat_inj.symm

theorem isHexDigit_iff {c : Char} :
    isHexDigit c = true ↔
      (48 ≤ c.toNat ∧ c.toNat ≤ 57) ∨ (65 ≤ c.toNat ∧ c.toNat ≤ 70) ∨
        (97 ≤ c.toNat ∧ c.toNat ≤ 102) := by
  simp only [isHexDigit, Char.isDigit_iff_toNat, char_le_iff, Char.reduceToNat, Bool.or_eq_true,
    Bool.and_eq_true, decide_eq_true_eq]
  omega

theorem isAlpha_iff {c : Char} :
    c.isAlpha = true ↔
      (65 ≤ c.toNat ∧ c.toNat ≤ 90) ∨ (97 ≤ c.toNat ∧ c.toNat ≤ 122) := by
  have hupper : c.isUpper = true ↔ 65 ≤ c.toNat ∧ c.toNat ≤ 90 := by
    show decide (c.val ≥ 65 ∧ c.val ≤ 90) = true ↔ _
    rw [decide_eq_true_iff, ge_iff_le, UInt32.le_iff_toNat_le, UInt32.le_iff_toNat_le]
    rfl
  have hlower : c.isLower = true ↔ 97 ≤ c.toNat ∧ c.toNat ≤ 122 := by
    show (decide (c.val ≥ 97) && decide (c.val ≤ 122)) = true ↔ _
    rw [Bool.and_eq_true, decide_eq_true_iff, decide_eq_true_iff, ge_iff_le,
      UInt32.le_iff_toNat_le, UInt32.le_iff_toNat_le]
    rfl
  show (c.isUpper || c.isLower) = true ↔ _
  rw [Bool.or_eq_true, hupper, hlower]

theorem isNameStart_iff {c : Char} :
    isNameStart c = true ↔
      (65 ≤ c.toNat ∧ c.toNat ≤ 90) ∨ c.toNat = 95 ∨ (97 ≤ c.toNat ∧ c.toNat ≤ 122) := by
  simp only [isNameStart, isAlpha_iff, char_eq_iff, Char.reduceToNat, Bool.or_eq_true, beq_iff_eq]
  omega

theorem isNameChar_iff {c : Char} :
    isNameChar c = true ↔
      c.toNat = 45 ∨ (48 ≤ c.toNat ∧ c.toNat ≤ 57) ∨ (65 ≤ c.toNat ∧ c.toNat ≤ 90) ∨
        c.toNat = 95 ∨ (97 ≤ c.toNat ∧ c.toNat ≤ 122) := by
  simp only [isNameChar, Char.isAlphanum, isAlpha_iff, Char.isDigit_iff_toNat, char_eq_iff,
    Char.reduceToNat, Bool.or_eq_true, beq_iff_eq]
  omega

theorem isNameChar_of_isNameStart {c : Char} (hc : isNameStart c = true) : isNameChar c = true := by
  rw [isNameStart_iff] at hc
  rw [isNameChar_iff]
  omega

theorem endsLine_iff {c : Char} :
    endsLine c = true ↔ c.toNat = 10 ∨ c.toNat = 12 ∨ c.toNat = 13 := by
  simp only [endsLine, char_eq_iff, Char.reduceToNat, Bool.or_eq_true, beq_iff_eq]
  omega

theorem isBlank_iff {c : Char} :
    Text.isBlank c = true ↔
      c.toNat = 9 ∨ c.toNat = 10 ∨ c.toNat = 12 ∨ c.toNat = 13 ∨ c.toNat = 32 := by
  simp only [Text.isBlank, char_eq_iff, Char.reduceToNat, Bool.or_eq_true, decide_eq_true_eq]
  omega

/-- ASCII characters that may stand for themselves. The backslash may not. -/
def AsciiPlain (plain : Char → Bool) : Prop :=
  ∀ c, plain c = true → c.toNat < 0x80 ∧ c ≠ '\\'

theorem asciiPlain_isNameStart : AsciiPlain isNameStart := by
  intro c hc
  rw [isNameStart_iff] at hc
  have hbackslash : '\\'.toNat = 92 := rfl
  rw [Ne, char_eq_iff]
  omega

theorem asciiPlain_isNameChar : AsciiPlain isNameChar := by
  intro c hc
  rw [isNameChar_iff] at hc
  have hbackslash : '\\'.toNat = 92 := rfl
  rw [Ne, char_eq_iff]
  omega

/-! ### Blanks and units -/

theorem afterBlank_cons {c : Char} {cs : List Char} (h : ¬(c = '\r' ∧ cs.head? = some '\n')) :
    afterBlank (c :: cs) = if Text.isBlank c then cs else c :: cs := by
  cases cs with
  | nil => rfl
  | cons d ds =>
    simp only [afterBlank]
    rw [if_neg fun hpair => h ⟨hpair.1, by rw [hpair.2]; rfl⟩]

theorem afterBlank_eq_or (cs : List Char) :
    afterBlank cs = cs ∨ ∃ c rest, cs = c :: rest ∧ Text.isBlank c = true := by
  cases cs with
  | nil => exact .inl rfl
  | cons c cs =>
    by_cases hc : Text.isBlank c = true
    · exact .inr ⟨c, cs, rfl, hc⟩
    · have hreturn : ¬(c = '\r' ∧ cs.head? = some '\n') := by
        rintro ⟨rfl, _⟩
        exact hc rfl
      rw [afterBlank_cons hreturn, if_neg hc]
      exact .inl rfl

theorem afterBlank_of_not_blank {c : Char} (hc : Text.isBlank c = false) (cs : List Char) :
    afterBlank (c :: cs) = c :: cs := by
  have hpair : ¬(c = '\r' ∧ cs.head? = some '\n') := by
    rintro ⟨rfl, _⟩
    cases hc
  rw [afterBlank_cons hpair, hc]
  rfl

theorem escape?_cons_eq_some_iff {c : Char} {cs rest : List Char} :
    escape? (c :: cs) = some rest ↔
      (isHexDigit c = true ∧ afterBlank (afterDigits 5 cs) = rest) ∨
      (isHexDigit c = false ∧ endsLine c = false ∧ cs = rest) := by
  simp only [escape?]
  by_cases hc : isHexDigit c = true
  · simp [hc]
  · by_cases hline : endsLine c = true <;> simp [hc, hline]

theorem unit?_cons_eq_some_iff {plain : Char → Bool} {c : Char} {cs rest : List Char} :
    unit? plain (c :: cs) = some rest ↔
      ((plain c = true ∨ 0x80 ≤ c.toNat) ∧ cs = rest) ∨
      (¬(plain c = true ∨ 0x80 ≤ c.toNat) ∧ c = '\\' ∧ escape? cs = some rest) := by
  simp only [unit?, Bool.or_eq_true, decide_eq_true_eq]
  by_cases hc : plain c = true ∨ 0x80 ≤ c.toNat
  · rw [if_pos hc]
    simp [hc]
  · rw [if_neg hc]
    by_cases hbackslash : c = '\\'
    · rw [if_pos hbackslash]
      constructor
      · intro h
        exact .inr ⟨hc, hbackslash, h⟩
      · rintro (⟨h, _⟩ | ⟨_, _, h⟩)
        · exact absurd h hc
        · exact h
    · rw [if_neg hbackslash]
      simp [hc, hbackslash]

theorem unit?_of_isBlank {c : Char} (hc : Text.isBlank c = true) (cs : List Char) :
    unit? isNameChar (c :: cs) = none := by
  rw [isBlank_iff] at hc
  have hname : ¬(isNameChar c = true ∨ 0x80 ≤ c.toNat) := by
    rw [isNameChar_iff]
    omega
  have hbackslash : c ≠ '\\' := by
    have : '\\'.toNat = 92 := rfl
    rw [Ne, char_eq_iff]
    omega
  simp only [unit?, Bool.or_eq_true, decide_eq_true_eq]
  rw [if_neg hname, if_neg hbackslash]

/-! ### What is read and what is left -/

/-- Whether a text ends in a backslash that is not itself escaped, so that it escapes what comes
    next. -/
def isEscaping (cs : List Char) : Bool :=
  cs.foldl (fun escaped c => !escaped && c == '\\') false

/-- Whether a text ends in a backslash that escapes what comes next, given whether its first
    character is escaped. -/
def escapesNext (escaped : Bool) (cs : List Char) : Bool :=
  cs.foldl (fun escaped c => !escaped && c == '\\') escaped

theorem escapesNext_false (cs : List Char) : escapesNext false cs = isEscaping cs := rfl

theorem escapesNext_cons (escaped : Bool) (c : Char) (cs : List Char) :
    escapesNext escaped (c :: cs) = escapesNext (!escaped && c == '\\') cs := rfl

theorem isEscaping_append {read : List Char} (h : isEscaping read = false) (cs : List Char) :
    isEscaping (read ++ cs) = isEscaping cs := by
  unfold isEscaping at h ⊢
  rw [List.foldl_append, h]

/-- The last character escapes what comes next if it is a backslash that is not itself escaped. -/
theorem isEscaping_concat (cs : List Char) (c : Char) :
    isEscaping (cs ++ [c]) = (!isEscaping cs && c == '\\') := by
  unfold isEscaping
  rw [List.foldl_append]
  rfl

/-- What is read up to some tail, without a backslash that escapes the tail. -/
def Closed (cs rest : List Char) : Prop := ∃ read, cs = read ++ rest ∧ isEscaping read = false

theorem Closed.refl (cs : List Char) : Closed cs cs := ⟨[], rfl, rfl⟩

theorem Closed.trans {cs ds es : List Char} (h : Closed cs ds) (h' : Closed ds es) :
    Closed cs es := by
  obtain ⟨read, rfl, hread⟩ := h
  obtain ⟨more, rfl, hmore⟩ := h'
  refine ⟨read ++ more, (List.append_assoc ..).symm, ?_⟩
  rw [isEscaping_append hread, hmore]

theorem Closed.cons {c : Char} (hc : c ≠ '\\') (cs : List Char) : Closed (c :: cs) cs := by
  refine ⟨[c], rfl, ?_⟩
  show (!false && c == '\\') = false
  rw [beq_false_of_ne hc]
  rfl

theorem Closed.suffix {cs rest : List Char} (h : Closed cs rest) : rest <:+ cs := by
  obtain ⟨read, rfl, _⟩ := h
  exact List.suffix_append read rest

theorem Closed.length_le {cs rest : List Char} (h : Closed cs rest) : rest.length ≤ cs.length :=
  h.suffix.length_le

theorem closed_afterDigits (n : Nat) (cs : List Char) : Closed cs (afterDigits n cs) := by
  induction n generalizing cs with
  | zero => exact .refl cs
  | succ n ih =>
    cases cs with
    | nil => exact .refl []
    | cons c cs =>
      simp only [afterDigits]
      by_cases hc : isHexDigit c = true
      · rw [if_pos hc]
        refine Closed.trans (.cons ?_ cs) (ih cs)
        rintro rfl
        cases hc
      · rw [if_neg hc]
        exact .refl _

theorem closed_afterBlank (cs : List Char) : Closed cs (afterBlank cs) := by
  have hblank : ∀ {c : Char} (ds : List Char), Text.isBlank c = true → Closed (c :: ds) ds := by
    intro c ds hc
    refine .cons ?_ ds
    rintro rfl
    cases hc
  unfold afterBlank
  split
  · exact .refl []
  · split
    · exact hblank [] ‹_›
    · exact .refl _
  · split
    · next hpair =>
      obtain ⟨rfl, rfl⟩ := hpair
      exact (hblank _ rfl).trans (hblank _ rfl)
    · split
      · exact hblank _ ‹_›
      · exact .refl _

/-- The character behind a backslash is escaped, whatever it is. -/
theorem closed_escaped (c : Char) (cs : List Char) : Closed ('\\' :: c :: cs) cs :=
  ⟨['\\', c], rfl, rfl⟩

/-- A unit takes at least one character. -/
theorem closed_unit? {plain : Char → Bool} (hplain : AsciiPlain plain) {cs rest : List Char}
    (h : unit? plain cs = some rest) : Closed cs rest ∧ rest.length < cs.length := by
  cases cs with
  | nil => cases h
  | cons c cs =>
    rcases unit?_cons_eq_some_iff.mp h with ⟨hc, rfl⟩ | ⟨_, rfl, hescape⟩
    · refine ⟨.cons ?_ cs, Nat.lt_succ_self _⟩
      rintro rfl
      rcases hc with hc | hc
      · exact (hplain _ hc).2 rfl
      · exact absurd hc (by decide)
    · -- an escape takes the character behind the backslash, whatever else it takes
      cases cs with
      | nil => cases hescape
      | cons d ds =>
        have hrest : Closed ds rest := by
          rcases escape?_cons_eq_some_iff.mp hescape with ⟨_, rfl⟩ | ⟨_, _, rfl⟩
          · exact (closed_afterDigits 5 ds).trans (closed_afterBlank _)
          · exact .refl ds
        have hlength := hrest.length_le
        refine ⟨(closed_escaped d ds).trans hrest, ?_⟩
        show rest.length < ds.length + 1 + 1
        omega

theorem afterUnitsWithin_eq {n : Nat} {cs : List Char} (hn : cs.length ≤ n) :
    afterUnitsWithin n cs = afterUnits cs := by
  unfold afterUnits
  -- both bounds are enough, so by induction on one of them both pass over the same units
  suffices hboth : ∀ (m n : Nat) (cs : List Char), cs.length ≤ m → cs.length ≤ n →
      afterUnitsWithin n cs = afterUnitsWithin m cs from hboth cs.length n cs (Nat.le_refl _) hn
  intro m
  induction m with
  | zero =>
    intro n cs hm _
    obtain rfl : cs = [] := List.eq_nil_of_length_eq_zero (Nat.le_zero.mp hm)
    cases n <;> rfl
  | succ m ih =>
    intro n cs hm hn
    cases n with
    | zero =>
      obtain rfl : cs = [] := List.eq_nil_of_length_eq_zero (Nat.le_zero.mp hn)
      rfl
    | succ n =>
      unfold afterUnitsWithin
      cases hunit : unit? isNameChar cs with
      | none => rfl
      | some rest =>
        have hlt := (closed_unit? asciiPlain_isNameChar hunit).2
        exact ih n rest (by omega) (by omega)

theorem afterUnits_of_none {cs : List Char} (h : unit? isNameChar cs = none) : afterUnits cs = cs := by
  rw [← afterUnitsWithin_eq (Nat.le_succ cs.length), afterUnitsWithin, h]

theorem afterUnits_of_some {cs rest : List Char} (h : unit? isNameChar cs = some rest) :
    afterUnits cs = afterUnits rest := by
  have hlt := (closed_unit? asciiPlain_isNameChar h).2
  rw [← afterUnitsWithin_eq (Nat.le_succ cs.length), afterUnitsWithin, h]
  exact afterUnitsWithin_eq (by omega)

/-- Induction along the units of a name. It ends because a unit takes at least one character. -/
@[elab_as_elim]
theorem units_induction {motive : List Char → Prop}
    (stop : ∀ cs, unit? isNameChar cs = none → motive cs)
    (unit : ∀ cs rest, unit? isNameChar cs = some rest → motive rest → motive cs)
    (cs : List Char) : motive cs := by
  generalize hn : cs.length = n
  induction n using Nat.strong_induction_on generalizing cs with
  | _ n ih =>
    cases hunit : unit? isNameChar cs with
    | none => exact stop cs hunit
    | some rest =>
      have hlt := (closed_unit? asciiPlain_isNameChar hunit).2
      exact unit cs rest hunit (ih rest.length (hn ▸ hlt) rest rfl)

theorem closed_afterUnits (cs : List Char) : Closed cs (afterUnits cs) := by
  induction cs using units_induction with
  | stop cs hunit =>
    rw [afterUnits_of_none hunit]
    exact .refl cs
  | unit cs rest hunit ih =>
    rw [afterUnits_of_some hunit]
    exact (closed_unit? asciiPlain_isNameChar hunit).1.trans ih

theorem closed_afterSign (cs : List Char) : Closed cs (afterSign cs) := by
  unfold afterSign
  split
  · exact .refl []
  · split
    · next hc =>
      refine .cons ?_ _
      rintro rfl
      rcases hc with hc | hc <;> cases hc
    · exact .refl _

theorem closed_ident? {cs rest : List Char} (h : ident? cs = some rest) :
    Closed cs rest ∧ rest.length < cs.length := by
  obtain ⟨m, hm, rfl⟩ := Option.map_eq_some_iff.mp h
  have hsign := closed_afterSign cs
  obtain ⟨hunit, hlt⟩ := closed_unit? asciiPlain_isNameStart hm
  have hunits := closed_afterUnits m
  refine ⟨(hsign.trans hunit).trans hunits, ?_⟩
  have hleft := hunits.length_le
  have hright := hsign.length_le
  omega

theorem marked?_eq_some_iff {marker : Char} {cs rest : List Char} :
    marked? marker cs = some rest ↔ ∃ ds, cs = marker :: ds ∧ ident? ds = some rest := by
  cases cs with
  | nil => simp [marked?]
  | cons c cs =>
    simp only [marked?, List.cons.injEq]
    by_cases hc : c = marker
    · rw [if_pos hc]
      simp [hc]
    · rw [if_neg hc]
      simp [hc]

theorem closed_marked? {marker : Char} (hmarker : marker ≠ '\\') {cs rest : List Char}
    (h : marked? marker cs = some rest) : Closed cs rest ∧ rest.length < cs.length := by
  obtain ⟨ds, rfl, hds⟩ := marked?_eq_some_iff.mp h
  obtain ⟨hclosed, hlt⟩ := closed_ident? hds
  exact ⟨(Closed.cons hmarker ds).trans hclosed, Nat.lt_succ_of_lt hlt⟩

/-- A token takes at least one character. -/
theorem closed_readAs? {rule : Rule} {cs rest : List Char} (h : readAs? rule cs = some rest) :
    Closed cs rest ∧ rest.length < cs.length := by
  have hcompound : ∀ marker, marker ≠ '\\' → (ident? cs).bind (marked? marker) = some rest →
      Closed cs rest ∧ rest.length < cs.length := by
    intro marker hmarker h
    obtain ⟨m, hm, hrest⟩ := Option.bind_eq_some_iff.mp h
    obtain ⟨hfirst, hltFirst⟩ := closed_ident? hm
    obtain ⟨hsecond, hltSecond⟩ := closed_marked? hmarker hrest
    exact ⟨hfirst.trans hsecond, Nat.lt_trans hltSecond hltFirst⟩
  cases rule with
  | nameAndId => exact hcompound '#' (by decide) h
  | id => exact closed_marked? (by decide) h
  | className => exact closed_marked? (by decide) h
  | nameAndClass => exact hcompound '.' (by decide) h
  | name => exact closed_ident? h
  | pseudoClass => exact closed_marked? (by decide) h

/-! ### Tokens and hits -/

theorem ident?_of_marker {c : Char} (hc : c = '#' ∨ c = '.' ∨ c = ':') (cs : List Char) :
    ident? (c :: cs) = none := by
  rcases hc with rfl | rfl | rfl <;> rfl

/-- The lexer tries the rules in order. -/
theorem token?_eq_findSome? (cs : List Char) :
    token? cs = Rule.all.findSome? fun rule => (readAs? rule cs).map fun rest => (rule, rest) := by
  simp only [Rule.all, List.findSome?_cons, List.findSome?_nil, readAs?]
  cases cs with
  | nil => rfl
  | cons c cs =>
    simp only [token?, marked?]
    -- where a marker stands no identifier starts, so the rules that start with one are out
    by_cases hhash : c = '#'
    · subst hhash
      rw [ident?_of_marker (.inl rfl)]
      cases ident? cs <;> rfl
    · by_cases hdot : c = '.'
      · subst hdot
        rw [ident?_of_marker (.inr (.inl rfl))]
        cases ident? cs <;> rfl
      · by_cases hcolon : c = ':'
        · subst hcolon
          rw [ident?_of_marker (.inr (.inr rfl))]
          cases ident? cs <;> rfl
        · simp only [if_neg hhash, if_neg hdot, if_neg hcolon]
          cases ident? (c :: cs) with
          | none => rfl
          | some rest =>
            show some (compound rest) = _
            unfold compound
            simp only [Option.bind_some, Option.map_none, Option.map_some]
            cases marked? '#' rest with
            | some last => rfl
            | none => cases marked? '.' rest <;> rfl

/-- A token is read by the rule under which it is found. -/
theorem readAs?_of_token? {cs rest : List Char} {rule : Rule} (h : token? cs = some (rule, rest)) :
    readAs? rule cs = some rest := by
  rw [token?_eq_findSome?] at h
  obtain ⟨r, _, hr⟩ := List.exists_of_findSome?_eq_some h
  obtain ⟨m, hm, heq⟩ := Option.map_eq_some_iff.mp hr
  rw [Prod.mk.injEq] at heq
  obtain ⟨rfl, rfl⟩ := heq
  exact hm

theorem closed_token? {cs rest : List Char} {rule : Rule} (h : token? cs = some (rule, rest)) :
    Closed cs rest ∧ rest.length < cs.length :=
  closed_readAs? (readAs?_of_token? h)

theorem hitsWithin_nil (n offset : Nat) : hitsWithin n offset [] = [] := by
  cases n <;> rfl

theorem hit_append (offset : Nat) (read rest : List Char) (rule : Rule) :
    hit offset (read ++ rest) rule rest =
      ⟨String.ofList read, offset, offset + Text.byteLength read, rule⟩ := by
  have htake : (read ++ rest).take ((read ++ rest).length - rest.length) = read := by
    rw [List.length_append, Nat.add_sub_cancel, List.take_left']
    rfl
  unfold hit
  rw [htake]

/-- Where a token starts, it is the first hit, and the lexer goes on behind it. -/
theorem hitsWithin_of_some {n : Nat} (offset : Nat) {cs rest : List Char} {rule : Rule}
    (hn : cs.length ≤ n) (h : token? cs = some (rule, rest)) :
    ∃ m, rest.length ≤ m ∧ hitsWithin n offset cs =
      hit offset cs rule rest :: hitsWithin m (hit offset cs rule rest).stop rest := by
  have hlt := (closed_token? h).2
  cases cs with
  | nil => cases h
  | cons c cs =>
    cases n with
    | zero => cases hn
    | succ n =>
      refine ⟨n, by omega, ?_⟩
      rw [hitsWithin, h]

/-- Where no token starts, a character is passed over. -/
theorem hitsWithin_of_none {n : Nat} (offset : Nat) {c : Char} {cs : List Char}
    (hn : (c :: cs).length ≤ n) (h : token? (c :: cs) = none) :
    ∃ m, cs.length ≤ m ∧ hitsWithin n offset (c :: cs) = hitsWithin m (offset + c.utf8Size) cs := by
  cases n with
  | zero => cases hn
  | succ n =>
    refine ⟨n, Nat.le_of_succ_le_succ hn, ?_⟩
    rw [hitsWithin, h]

end TreeQuery.Lexer
