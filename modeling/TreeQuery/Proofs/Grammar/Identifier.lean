import TreeQuery.Proofs.Grammar.Lexer
import TreeQuery.Proofs.Grammar.Standard
import TreeQuery.Proofs.Pattern.Tails

/-! # Identifiers — the preferred reading is the longest one

    The pattern of an identifier may be read in many ways: the digits of an escape
    can be given up and be read as name characters, the blank behind them can be
    left where it is, and the loop can be left early. The preferred reading takes
    as much as possible, as the lexer does. Every other reading either comes to the
    same end or stops in front of a character that is no marker, so nothing is lost
    by never going back.

    * **Lagging behind**: an escape given up too early is followed by its own
      digits or by a blank.
    * **Decided readers**: a lexer decides a reader if it finds the preferred tail,
      and all other tails go on with something else than a marker.
-/

namespace TreeQuery.Grammar.Standard

open Pattern Lexer

/-! ### Characters -/

theorem inRanges_cons {c first last : Char} {ranges : List (Char × Char)} :
    CharSet.inRanges c ((first, last) :: ranges) = true ↔
      (first.toNat ≤ c.toNat ∧ c.toNat ≤ last.toNat) ∨ CharSet.inRanges c ranges = true := by
  unfold CharSet.inRanges
  simp only [List.any_cons, Bool.or_eq_true, Bool.and_eq_true, decide_eq_true_eq, char_le_iff]

theorem inRanges_nil {c : Char} : CharSet.inRanges c [] = true ↔ False := by
  unfold CharSet.inRanges
  rw [List.any_nil, Bool.false_eq_true]

theorem contains_iff {c : Char} {ranges : List (Char × Char)} :
    (CharSet.mk false ranges).contains c = true ↔ CharSet.inRanges c ranges = true := by
  unfold CharSet.contains
  rw [Bool.bne_false]

theorem contains_complement_iff {c : Char} {ranges : List (Char × Char)} :
    (CharSet.mk true ranges).contains c = true ↔ ¬CharSet.inRanges c ranges = true := by
  unfold CharSet.contains
  rw [Bool.bne_true, Bool.not_eq_true', Bool.not_eq_true]

theorem contains_signSet {c : Char} : signSet.contains c = true ↔ c = '-' ∨ c = '@' := by
  simp only [signSet, contains_iff, inRanges_cons, inRanges_nil, or_false, char_eq_iff,
    Char.reduceToNat]
  omega

theorem contains_startSet (c : Char) : startSet.contains c = isNameStart c := by
  rw [Bool.eq_iff_iff, isNameStart_iff]
  simp only [startSet, contains_iff, inRanges_cons, inRanges_nil, or_false, Char.reduceToNat]
  omega

theorem contains_nameSet (c : Char) : nameSet.contains c = isNameChar c := by
  rw [Bool.eq_iff_iff, isNameChar_iff]
  simp only [nameSet, contains_iff, inRanges_cons, inRanges_nil, or_false, Char.reduceToNat]
  omega

theorem contains_nonAsciiSet {c : Char} : nonAsciiSet.contains c = true ↔ 0x80 ≤ c.toNat := by
  simp only [nonAsciiSet, contains_complement_iff, inRanges_cons, inRanges_nil, or_false,
    Char.reduceToNat]
  omega

theorem contains_hexSet (c : Char) : hexSet.contains c = isHexDigit c := by
  rw [Bool.eq_iff_iff, isHexDigit_iff]
  simp only [hexSet, contains_iff, inRanges_cons, inRanges_nil, or_false, Char.reduceToNat]

theorem contains_blankSet (c : Char) : blankSet.contains c = Text.isBlank c := by
  rw [Bool.eq_iff_iff, isBlank_iff]
  simp only [blankSet, contains_iff, inRanges_cons, inRanges_nil, or_false, Char.reduceToNat]
  omega

theorem contains_escapableSet {c : Char} :
    escapableSet.contains c = true ↔ isHexDigit c = false ∧ endsLine c = false := by
  rw [← Bool.not_eq_true, ← Bool.not_eq_true, isHexDigit_iff, endsLine_iff]
  simp only [escapableSet, contains_complement_iff, inRanges_cons, inRanges_nil, or_false,
    Char.reduceToNat]
  omega

/-! ### Lagging behind -/

/-- Hexadecimal digits, at least one, in front of an end. -/
inductive Behind : List Char → List Char → Prop
  | last {d : Char} {goal : List Char} : isHexDigit d = true → Behind (d :: goal) goal
  | more {d : Char} {cs goal : List Char} :
    isHexDigit d = true → Behind cs goal → Behind (d :: cs) goal

/-- A text that an escape given up too early may leave, where `goal` is what the whole escape
    leaves: in front of some of its digits, or in front of the blank that belongs to it. -/
inductive Lags : List Char → List Char → Prop
  | blank {c : Char} {cs goal : List Char} : Text.isBlank c = true → Lags (c :: cs) goal
  | last {d : Char} {goal : List Char} : isHexDigit d = true → Lags (d :: goal) goal
  | more {d : Char} {cs goal : List Char} :
    isHexDigit d = true → Lags cs goal → Lags (d :: cs) goal

/-- Whoever is behind the digits of an escape lags behind the whole escape. -/
theorem Behind.lags {cs goal : List Char} (h : Behind cs goal) : Lags cs (afterBlank goal) := by
  induction h with
  | @last d goal hd =>
    rcases afterBlank_eq_or goal with hsame | ⟨c, rest, rfl, hc⟩
    · rw [hsame]
      exact .last hd
    · exact .more hd (.blank hc)
  | more hd _ ih => exact .more hd ih

theorem behind_afterDigits {d : Char} (hd : isHexDigit d = true) (n : Nat) (cs : List Char) :
    Behind (d :: cs) (afterDigits n cs) := by
  induction n generalizing d cs with
  | zero => exact .last hd
  | succ n ih =>
    cases cs with
    | nil => exact .last hd
    | cons c cs =>
      simp only [afterDigits]
      by_cases hc : isHexDigit c = true
      · rw [if_pos hc]
        exact .more hd (ih hc cs)
      · rw [if_neg hc]
        exact .last hd

/-- Tails of which the first is what the lexer leaves, while the others lag behind it. Where the
    lexer reads nothing, there are none. -/
def LedBy (tails : List (List Char)) (goal? : Option (List Char)) : Prop :=
  ∃ others, tails = goal?.toList ++ others ∧ ∀ t ∈ others, ∃ goal, goal? = some goal ∧ Lags t goal

theorem LedBy.cons {goal : List Char} {others : List (List Char)}
    (h : ∀ t ∈ others, Lags t goal) : LedBy (goal :: others) (some goal) :=
  ⟨others, rfl, fun t ht => ⟨goal, rfl, h t ht⟩⟩

theorem LedBy.single (goal : List Char) : LedBy [goal] (some goal) :=
  .cons (List.forall_mem_nil _)

theorem LedBy.nil : LedBy [] none := ⟨[], rfl, List.forall_mem_nil _⟩

theorem LedBy.eq_nil {tails : List (List Char)} (h : LedBy tails none) : tails = [] := by
  obtain ⟨others, htails, hlags⟩ := h
  rw [htails, Option.toList_none, List.nil_append, List.eq_nil_iff_forall_not_mem]
  intro t ht
  obtain ⟨goal, hgoal, _⟩ := hlags t ht
  cases hgoal

/-! ### Escapes -/

theorem tails_optional (r : Reader) (cs : List Char) :
    (Reader.repeated ⟨0, some 1, true⟩ r).tails cs = r.tails cs ++ [cs] := by
  have heq : Reader.repeated ⟨0, some 1, true⟩ r = Reader.alt r .skip := by
    show Reader.seq .skip (Reader.alt (Reader.seq r .skip) .skip) = _
    rw [Reader.skip_seq, Reader.seq_skip]
  rw [heq, Reader.tails_alt, Reader.tails_skip]

/-- Digits are given up from the last one on. -/
theorem tails_digits (n : Nat) (cs : List Char) :
    ∃ others, (Reader.roundsWithin true (.one hexSet) n).tails cs = afterDigits n cs :: others ∧
      ∀ t ∈ others, Behind t (afterDigits n cs) := by
  induction n generalizing cs with
  | zero => exact ⟨[], rfl, List.forall_mem_nil _⟩
  | succ n ih =>
    rw [(Reader.plain_one hexSet).tails_roundsWithin_succ]
    cases cs with
    | nil => exact ⟨[], rfl, List.forall_mem_nil _⟩
    | cons d ds =>
      rw [Reader.tails_one_cons, contains_hexSet]
      simp only [afterDigits]
      by_cases hd : isHexDigit d = true
      · obtain ⟨others, htails, hbehind⟩ := ih ds
        rw [if_pos hd, if_pos hd, List.flatMap_singleton, htails]
        refine ⟨others ++ [d :: ds], rfl, fun t ht => ?_⟩
        rcases List.mem_append.mp ht with ht | ht
        · exact hbehind t ht
        · rw [List.mem_singleton.mp ht]
          exact behind_afterDigits hd n ds
      · rw [if_neg hd, if_neg hd]
        exact ⟨[], rfl, List.forall_mem_nil _⟩

theorem plain_blank : Reader.Plain blank.readings := plain_readings rfl

theorem tails_blank_cons {c : Char} {cs : List Char}
    (h : ¬(c = '\r' ∧ cs.head? = some '\n')) :
    blank.readings.tails (c :: cs) = if Text.isBlank c then [cs] else [] := by
  have hpair : (Reader.seq (.one (.single '\r')) (.one (.single '\n'))).tails (c :: cs) = [] := by
    rw [(Reader.plain_one _).tails_seq, Reader.tails_one_cons, CharSet.contains_single]
    by_cases hc : c = '\r'
    · subst hc
      cases cs with
      | nil => rfl
      | cons d ds =>
        have hd : d ≠ '\n' := fun hd => h ⟨rfl, by rw [hd]; rfl⟩
        simp [hd]
    · simp [hc]
  show (Reader.alt (.seq (.one (.single '\r')) (.one (.single '\n'))) (.one blankSet)).tails
    (c :: cs) = _
  rw [Reader.tails_alt, hpair, List.nil_append, Reader.tails_one_cons, contains_blankSet]

/-- A blank is given up by staying in front of it. -/
theorem tails_optional_blank (cs : List Char) :
    ∃ others, (Reader.repeated ⟨0, some 1, true⟩ blank.readings).tails cs =
        afterBlank cs :: others ∧
      ∀ t ∈ others, ∃ c rest, t = c :: rest ∧ Text.isBlank c = true := by
  rw [tails_optional]
  cases cs with
  | nil => exact ⟨[], rfl, List.forall_mem_nil _⟩
  | cons c cs =>
    by_cases hpair : c = '\r' ∧ cs.head? = some '\n'
    · obtain ⟨rfl, hhead⟩ := hpair
      obtain ⟨ds, rfl⟩ := List.head?_eq_some_iff.mp hhead
      refine ⟨['\n' :: ds, '\r' :: '\n' :: ds], rfl, fun t ht => ?_⟩
      simp only [List.mem_cons, List.not_mem_nil, or_false] at ht
      rcases ht with rfl | rfl
      · exact ⟨'\n', ds, rfl, rfl⟩
      · exact ⟨'\r', '\n' :: ds, rfl, rfl⟩
    · rw [tails_blank_cons hpair, afterBlank_cons hpair]
      by_cases hc : Text.isBlank c = true
      · rw [if_pos hc, if_pos hc]
        refine ⟨[c :: cs], rfl, fun t ht => ?_⟩
        exact ⟨c, cs, List.mem_singleton.mp ht, hc⟩
      · rw [if_neg hc, if_neg hc]
        exact ⟨[], rfl, List.forall_mem_nil _⟩

/-- In front of a digit there is no blank to take. -/
theorem tails_optional_blank_of_behind {cs goal : List Char} (h : Behind cs goal) :
    (Reader.repeated ⟨0, some 1, true⟩ blank.readings).tails cs = [cs] := by
  have hdigit : ∀ {d : Char} (ds : List Char), isHexDigit d = true →
      (Reader.repeated ⟨0, some 1, true⟩ blank.readings).tails (d :: ds) = [d :: ds] := by
    intro d ds hd
    have hblank : ¬Text.isBlank d = true := by
      rw [isBlank_iff]
      rw [isHexDigit_iff] at hd
      omega
    have hpair : ¬(d = '\r' ∧ ds.head? = some '\n') := by
      rintro ⟨rfl, _⟩
      exact hblank rfl
    rw [tails_optional, tails_blank_cons hpair, if_neg hblank, List.nil_append]
  cases h with
  | last hd => exact hdigit _ hd
  | more hd _ => exact hdigit _ hd

theorem plain_code : Reader.Plain code.readings := plain_readings rfl

theorem readings_code :
    code.readings =
      .seq (.seq (.one hexSet) (.roundsWithin true (.one hexSet) 5))
        (.repeated ⟨0, some 1, true⟩ blank.readings) := by
  show Reader.seq (.seq (.seq (.one hexSet) .skip) (.roundsWithin true (.one hexSet) 5)) _ = _
  rw [Reader.seq_skip]
  rfl

/-- The digits of an escape and the blank behind them: the preferred tail is that of the whole
    escape, and the others lag behind it. -/
theorem ledBy_code {d : Char} (hd : isHexDigit d = true) (ds : List Char) :
    LedBy (code.readings.tails (d :: ds)) (some (afterBlank (afterDigits 5 ds))) := by
  obtain ⟨early, hdigits, hbehind⟩ := tails_digits 5 ds
  obtain ⟨unblanked, hblank, hstays⟩ := tails_optional_blank (afterDigits 5 ds)
  have hcode : code.readings.tails (d :: ds) =
      ((Reader.roundsWithin true (.one hexSet) 5).tails ds).flatMap
        (Reader.repeated ⟨0, some 1, true⟩ blank.readings).tails := by
    rw [readings_code, (plain_blank.repeated _).tails_seq,
      ((Reader.plain_one hexSet).roundsWithin true 5).tails_seq, Reader.tails_one_cons,
      contains_hexSet, if_pos hd, List.flatMap_singleton]
  rw [hcode, hdigits, List.flatMap_cons, hblank]
  -- either the blank is given up, or a digit is given up and no blank stands there
  refine .cons fun t ht => ?_
  rcases List.mem_append.mp ht with ht | ht
  · obtain ⟨c, rest, rfl, hc⟩ := hstays t ht
    exact .blank hc
  · obtain ⟨m, hm, ht⟩ := List.mem_flatMap.mp ht
    rw [tails_optional_blank_of_behind (hbehind m hm)] at ht
    rw [List.mem_singleton.mp ht]
    exact (hbehind m hm).lags

theorem tails_code_of_not_hex {d : Char} (hd : isHexDigit d = false) (ds : List Char) :
    code.readings.tails (d :: ds) = [] := by
  rw [readings_code, (plain_blank.repeated _).tails_seq,
    ((Reader.plain_one hexSet).roundsWithin true 5).tails_seq, Reader.tails_one_cons,
    contains_hexSet, hd]
  rfl

/-- An escape behind its backslash. -/
theorem ledBy_escape (cs : List Char) : LedBy (escape.readings.tails ('\\' :: cs)) (escape? cs) := by
  have hescape : escape.readings.tails ('\\' :: cs) =
      code.readings.tails cs ++ (Reader.one escapableSet).tails cs := by
    show (Reader.seq (.one (.single '\\')) (.alt code.readings (.one escapableSet))).tails _ = _
    rw [(plain_code.alt (Reader.plain_one _)).tails_seq, Reader.tails_one_cons,
      CharSet.contains_single, if_pos (beq_self_eq_true _), List.flatMap_singleton,
      Reader.tails_alt]
  rw [hescape]
  cases cs with
  | nil => exact .nil
  | cons d ds =>
    rw [Reader.tails_one_cons]
    by_cases hd : isHexDigit d = true
    · have hno : ¬escapableSet.contains d = true := by
        rw [contains_escapableSet, hd]
        rintro ⟨h, _⟩
        cases h
      have hread : escape? (d :: ds) = some (afterBlank (afterDigits 5 ds)) :=
        escape?_cons_eq_some_iff.mpr (.inl ⟨hd, rfl⟩)
      rw [if_neg hno, List.append_nil, hread]
      exact ledBy_code hd ds
    · rw [Bool.not_eq_true] at hd
      rw [tails_code_of_not_hex hd, List.nil_append]
      by_cases hline : endsLine d = true
      · -- neither alternative reads the end of a line
        have hno : ¬escapableSet.contains d = true := by
          rw [contains_escapableSet, hline]
          rintro ⟨_, h⟩
          cases h
        have hread : escape? (d :: ds) = none := by simp [escape?, hd, hline]
        rw [if_neg hno, hread]
        exact .nil
      · rw [Bool.not_eq_true] at hline
        have hread : escape? (d :: ds) = some ds :=
          escape?_cons_eq_some_iff.mpr (.inr ⟨hd, hline, rfl⟩)
        rw [if_pos (contains_escapableSet.mpr ⟨hd, hline⟩), hread]
        exact .single ds

/-! ### Units -/

theorem plain_unit (set : CharSet) : Reader.Plain (unit set).readings := plain_readings rfl

theorem advancing_unit (set : CharSet) : Reader.Advancing (unit set).readings := by
  refine advancing_readings ?_ rfl
  show Productive (unit set)
  simp [unit, escape, code, blank, Productive]

theorem tails_unit_cons (set : CharSet) (c : Char) (cs : List Char) :
    (unit set).readings.tails (c :: cs) =
      (if set.contains c then [cs] else []) ++
        ((if nonAsciiSet.contains c then [cs] else []) ++ escape.readings.tails (c :: cs)) := by
  show (Reader.alt (.one set) (.alt (.one nonAsciiSet) escape.readings)).tails (c :: cs) = _
  rw [Reader.tails_alt, Reader.tails_alt, Reader.tails_one_cons, Reader.tails_one_cons]

theorem tails_escape_of_ne {c : Char} (hc : c ≠ '\\') (cs : List Char) :
    escape.readings.tails (c :: cs) = [] := by
  show (Reader.seq (.one (.single '\\')) _).tails (c :: cs) = []
  rw [(plain_readings (p := .alt code (.one escapableSet)) rfl).tails_seq,
    Reader.tails_one_cons, CharSet.contains_single, beq_false_of_ne hc]
  rfl

section

variable {set : CharSet} {plain : Char → Bool} (hset : ∀ c, set.contains c = plain c)
  (hplain : AsciiPlain plain)

include hset hplain

/-- A character that stands for itself is read in one way. -/
theorem tails_unit_of_plain {c : Char} (hc : plain c = true) (cs : List Char) :
    (unit set).readings.tails (c :: cs) = [cs] := by
  obtain ⟨hascii, hbackslash⟩ := hplain c hc
  have hno : ¬nonAsciiSet.contains c = true := by
    rw [contains_nonAsciiSet]
    omega
  rw [tails_unit_cons, hset, if_pos hc, if_neg hno, tails_escape_of_ne hbackslash]
  rfl

/-- A unit has one preferred tail, and the others lag behind it. -/
theorem ledBy_unit (cs : List Char) : LedBy ((unit set).readings.tails cs) (unit? plain cs) := by
  cases cs with
  | nil => exact .nil
  | cons c cs =>
    -- only one of the three alternatives can read the character, and only an escape lags
    by_cases hc : plain c = true
    · rw [tails_unit_of_plain hset hplain hc cs,
        unit?_cons_eq_some_iff.mpr (.inl ⟨.inl hc, rfl⟩)]
      exact .single cs
    · by_cases hwide : 0x80 ≤ c.toNat
      · have hbackslash : c ≠ '\\' := by
          rintro rfl
          exact absurd hwide (by decide)
        rw [tails_unit_cons, hset, if_neg hc, if_pos (contains_nonAsciiSet.mpr hwide),
          tails_escape_of_ne hbackslash, unit?_cons_eq_some_iff.mpr (.inl ⟨.inr hwide, rfl⟩)]
        exact .single cs
      · have hread : unit? plain (c :: cs) = if c = '\\' then escape? cs else none := by
          simp only [unit?, Bool.or_eq_true, decide_eq_true_eq]
          rw [if_neg (not_or.mpr ⟨hc, hwide⟩)]
        rw [tails_unit_cons, hset, if_neg hc, if_neg (contains_nonAsciiSet.not.mpr hwide),
          List.nil_append, List.nil_append, hread]
        by_cases hbackslash : c = '\\'
        · rw [if_pos hbackslash, hbackslash]
          exact ledBy_escape cs
        · rw [if_neg hbackslash, tails_escape_of_ne hbackslash]
          exact .nil

end

theorem ledBy_startUnit (cs : List Char) :
    LedBy ((unit startSet).readings.tails cs) (unit? isNameStart cs) :=
  ledBy_unit contains_startSet asciiPlain_isNameStart cs

theorem ledBy_nameUnit (cs : List Char) :
    LedBy ((unit nameSet).readings.tails cs) (unit? isNameChar cs) :=
  ledBy_unit contains_nameSet asciiPlain_isNameChar cs

/-- No unit is read in any way where the lexer finds none. -/
theorem tails_nameUnit_of_none {cs : List Char} (h : unit? isNameChar cs = none) :
    (unit nameSet).readings.tails cs = [] := by
  have hled := ledBy_nameUnit cs
  rw [h] at hled
  exact hled.eq_nil

/-! ### Decided readers -/

/-- A text that goes on with something else than a marker inside a token. -/
def Unmarked (cs : List Char) : Prop := ∃ c rest, cs = c :: rest ∧ c ≠ '#' ∧ c ≠ '.'

/-- A lexer decides a reader: it finds the preferred tail, and every other tail is the same one or
    goes on with something else than a marker. -/
structure Decides (r : Reader) (lexer : List Char → Option (List Char)) : Prop where
  plain : Reader.Plain r
  head : ∀ cs, (r.tails cs).head? = lexer cs
  others : ∀ cs, ∀ t ∈ r.tails cs, lexer cs = some t ∨ Unmarked t

/-- The loop over the units of an identifier. -/
def loop : Reader := .rounds true (unit nameSet).readings

theorem plain_loop : Reader.Plain loop := (plain_unit nameSet).rounds true

theorem tails_loop (cs : List Char) :
    loop.tails cs = ((unit nameSet).readings.tails cs).flatMap loop.tails ++ [cs] :=
  (plain_unit nameSet).tails_rounds (advancing_unit nameSet) cs

theorem unmarked_of_isHexDigit {d : Char} (hd : isHexDigit d = true) (ds : List Char) :
    Unmarked (d :: ds) := by
  rw [isHexDigit_iff] at hd
  have hhash : '#'.toNat = 35 := rfl
  have hdot : '.'.toNat = 46 := rfl
  refine ⟨d, ds, rfl, ?_, ?_⟩ <;> rw [Ne, char_eq_iff] <;> omega

/-- Whoever lags behind an escape only comes to where the loop gets to behind the escape, or stops
    before. -/
theorem Lags.tails_loop {cs goal : List Char} (h : Lags cs goal) :
    ∀ t ∈ loop.tails cs, Unmarked t ∨ t ∈ loop.tails goal := by
  have hdigit : ∀ {d : Char} (ds : List Char), isHexDigit d = true →
      loop.tails (d :: ds) = loop.tails ds ++ [d :: ds] := by
    intro d ds hd
    have hname : isNameChar d = true := by
      rw [isHexDigit_iff] at hd
      rw [isNameChar_iff]
      omega
    rw [Standard.tails_loop, tails_unit_of_plain contains_nameSet asciiPlain_isNameChar hname,
      List.flatMap_singleton]
  -- a digit is a unit of the loop, so the loop takes the digits that were given up
  induction h with
  | @blank c cs goal hc =>
    intro t ht
    rw [Standard.tails_loop, tails_nameUnit_of_none (unit?_of_isBlank hc cs)] at ht
    obtain rfl : t = c :: cs := List.mem_singleton.mp ht
    rw [isBlank_iff] at hc
    have hhash : '#'.toNat = 35 := rfl
    have hdot : '.'.toNat = 46 := rfl
    refine .inl ⟨c, cs, rfl, ?_, ?_⟩ <;> rw [Ne, char_eq_iff] <;> omega
  | @last d goal hd =>
    intro t ht
    rw [hdigit goal hd] at ht
    rcases List.mem_append.mp ht with ht | ht
    · exact .inr ht
    · rw [List.mem_singleton.mp ht]
      exact .inl (unmarked_of_isHexDigit hd goal)
  | @more d cs goal hd _ ih =>
    intro t ht
    rw [hdigit cs hd] at ht
    rcases List.mem_append.mp ht with ht | ht
    · exact ih t ht
    · rw [List.mem_singleton.mp ht]
      exact .inl (unmarked_of_isHexDigit hd cs)

theorem unmarked_of_unit? {cs rest : List Char} (h : unit? isNameChar cs = some rest) :
    Unmarked cs := by
  cases cs with
  | nil => cases h
  | cons c cs =>
    have hhash : '#'.toNat = 35 := rfl
    have hdot : '.'.toNat = 46 := rfl
    refine ⟨c, cs, rfl, ?_⟩
    rcases unit?_cons_eq_some_iff.mp h with ⟨hc, _⟩ | ⟨_, rfl, _⟩
    · rw [isNameChar_iff] at hc
      constructor <;> rw [Ne, char_eq_iff] <;> omega
    · exact ⟨by decide, by decide⟩

/-- What comes of the tails of a unit when the loop goes on behind each of them, provided that the
    loop is decided behind the preferred one. -/
theorem LedBy.flatMap_tails_loop {tails : List (List Char)} {goal? : Option (List Char)}
    (h : LedBy tails goal?)
    (hloop : ∀ goal, goal? = some goal → (loop.tails goal).head? = some (afterUnits goal) ∧
      ∀ t ∈ loop.tails goal, afterUnits goal = t ∨ Unmarked t) :
    (tails.flatMap loop.tails).head? = goal?.map afterUnits ∧
      ∀ t ∈ tails.flatMap loop.tails, goal?.map afterUnits = some t ∨ Unmarked t := by
  cases goal? with
  | none =>
    rw [h.eq_nil]
    exact ⟨rfl, List.forall_mem_nil _⟩
  | some goal =>
    obtain ⟨others, rfl, hlags⟩ := h
    obtain ⟨hhead, hothers⟩ := hloop goal rfl
    rw [Option.toList_some, List.singleton_append, List.flatMap_cons, List.head?_append, hhead]
    refine ⟨rfl, fun t ht => ?_⟩
    have hgoal : ∀ t ∈ loop.tails goal, some (afterUnits goal) = some t ∨ Unmarked t :=
      fun t ht => (hothers t ht).imp_left fun h => congrArg some h
    rcases List.mem_append.mp ht with ht | ht
    · exact hgoal t ht
    · -- whoever lags behind gets to nowhere else
      obtain ⟨m, hm, ht⟩ := List.mem_flatMap.mp ht
      obtain ⟨goal', hgoal', hlag⟩ := hlags m hm
      obtain rfl := Option.some.inj hgoal'
      rcases hlag.tails_loop t ht with ht | ht
      · exact .inr ht
      · exact hgoal t ht

/-- The loop goes as far as the lexer does, or stops in front of another unit or a blank. -/
theorem decides_loop : Decides loop fun cs => some (afterUnits cs) := by
  -- by induction on the length: behind a unit the loop is decided already
  have hboth : ∀ (n : Nat) (cs : List Char), cs.length = n →
      (loop.tails cs).head? = some (afterUnits cs) ∧
      ∀ t ∈ loop.tails cs, afterUnits cs = t ∨ Unmarked t := by
    intro n
    induction n using Nat.strong_induction_on with
    | _ n ih =>
      intro cs hn
      obtain ⟨hhead, hothers⟩ := (ledBy_nameUnit cs).flatMap_tails_loop fun goal hgoal =>
        ih goal.length (hn ▸ (closed_unit? asciiPlain_isNameChar hgoal).2) goal rfl
      rw [tails_loop, List.head?_append, hhead]
      cases hunit : unit? isNameChar cs with
      | none =>
        rw [tails_nameUnit_of_none hunit, afterUnits_of_none hunit]
        refine ⟨rfl, fun t ht => .inl ?_⟩
        exact (List.mem_singleton.mp ht).symm
      | some goal =>
        rw [afterUnits_of_some hunit]
        refine ⟨rfl, fun t ht => ?_⟩
        rcases List.mem_append.mp ht with ht | ht
        · rw [hunit] at hothers
          exact (hothers t ht).imp_left fun h => Option.some.inj h
        · rw [List.mem_singleton.mp ht]
          exact .inr (unmarked_of_unit? hunit)
  exact ⟨plain_loop, fun cs => (hboth cs.length cs rfl).1,
    fun cs t ht => ((hboth cs.length cs rfl).2 t ht).imp_left fun h => congrArg some h⟩

/-! ### Identifiers -/

/-- A unit to start with and the loop behind it. -/
theorem decides_start :
    Decides (.seq (unit startSet).readings loop) fun cs => (unit? isNameStart cs).map afterUnits := by
  have hboth : ∀ cs, ((Reader.seq (unit startSet).readings loop).tails cs).head? =
        (unit? isNameStart cs).map afterUnits ∧
      ∀ t ∈ (Reader.seq (unit startSet).readings loop).tails cs,
        (unit? isNameStart cs).map afterUnits = some t ∨ Unmarked t := by
    intro cs
    rw [plain_loop.tails_seq]
    exact (ledBy_startUnit cs).flatMap_tails_loop fun goal _ => ⟨decides_loop.head goal,
      fun t ht => (decides_loop.others goal t ht).imp_left fun h => Option.some.inj h⟩
  exact ⟨(plain_unit startSet).seq plain_loop, fun cs => (hboth cs).1, fun cs => (hboth cs).2⟩

/-- The reader of an identifier. -/
def ident : Reader := (chain identParts).readings

theorem ident_eq :
    ident = .seq (.repeated ⟨0, some 1, true⟩ (.one signSet))
      (.seq (unit startSet).readings loop) := by
  show Reader.seq _ (.seq _ (.seq .skip loop)) = _
  rw [Reader.skip_seq]
  rfl

/-- The lexer decides identifiers. -/
theorem decides_ident : Decides ident ident? := by
  have hstart := decides_start
  have htails : ∀ cs, ident.tails cs =
      (Reader.seq (unit startSet).readings loop).tails (afterSign cs) := by
    intro cs
    rw [ident_eq, hstart.plain.tails_seq, tails_optional]
    cases cs with
    | nil => exact List.flatMap_singleton ..
    | cons c cs =>
      rw [Reader.tails_one_cons]
      by_cases hc : c = '-' ∨ c = '@'
      · -- no identifier starts at a sign, so nothing is gained by leaving it where it is
        have hnone : (Reader.seq (unit startSet).readings loop).tails (c :: cs) = [] := by
          rw [← List.head?_eq_none_iff, hstart.head]
          rcases hc with rfl | rfl <;> rfl
        rw [if_pos (contains_signSet.mpr hc), List.flatMap_append, List.flatMap_singleton,
          List.flatMap_singleton, hnone, List.append_nil, afterSign, if_pos hc]
      · rw [if_neg (contains_signSet.not.mpr hc), List.nil_append, List.flatMap_singleton,
          afterSign, if_neg hc]
  refine ⟨?_, fun cs => ?_, fun cs t ht => ?_⟩
  · rw [ident_eq]
    exact ((Reader.plain_one signSet).repeated _).seq hstart.plain
  · rw [htails]
    exact hstart.head (afterSign cs)
  · rw [htails] at ht
    exact hstart.others (afterSign cs) t ht

/-! ### Rules -/

/-- One decided reader after another, where the second reads nothing unless a marker stands in
    front. -/
theorem Decides.seq {r s : Reader} {first second : List Char → Option (List Char)}
    (hr : Decides r first) (hs : Decides s second)
    (hmarked : ∀ cs, Unmarked cs → second cs = none) :
    Decides (.seq r s) fun cs => (first cs).bind second := by
  -- the tails that are not preferred are passed over by the second reader
  have hdead : ∀ cs, Unmarked cs → s.tails cs = [] := by
    intro cs hcs
    rw [← List.head?_eq_none_iff, hs.head]
    exact hmarked cs hcs
  have htails : ∀ cs, ∀ t ∈ (Reader.seq r s).tails cs,
      ∃ m, first cs = some m ∧ t ∈ s.tails m := by
    intro cs t ht
    rw [hs.plain.tails_seq] at ht
    obtain ⟨m, hm, ht⟩ := List.mem_flatMap.mp ht
    rcases hr.others cs m hm with hfirst | hunmarked
    · exact ⟨m, hfirst, ht⟩
    · rw [hdead m hunmarked] at ht
      cases ht
  refine ⟨hr.plain.seq hs.plain, fun cs => ?_, fun cs t ht => ?_⟩
  · cases hread : (first cs).bind second with
    | none =>
      rw [List.head?_eq_none_iff, List.eq_nil_iff_forall_not_mem]
      intro t ht
      obtain ⟨m, hm, ht⟩ := htails cs t ht
      rw [hm] at hread
      have hnone : s.tails m = [] := by
        rw [← List.head?_eq_none_iff, hs.head]
        exact hread
      rw [hnone] at ht
      cases ht
    | some t =>
      obtain ⟨m, hm, ht⟩ := Option.bind_eq_some_iff.mp hread
      obtain ⟨ms, hms⟩ : ∃ ms, r.tails cs = m :: ms := by
        rw [← List.head?_eq_some_iff, hr.head, hm]
      rw [hs.plain.tails_seq, hms, List.flatMap_cons, List.head?_append, hs.head, ht]
      rfl
  · obtain ⟨m, hm, ht⟩ := htails cs t ht
    rw [hm]
    exact hs.others m t ht

theorem tails_marked_nil (marker : Char) :
    (Reader.seq (letter marker).readings ident).tails [] = [] := by
  rw [decides_ident.plain.tails_seq]
  rfl

theorem tails_marked_cons (marker c : Char) (cs : List Char) :
    (Reader.seq (letter marker).readings ident).tails (c :: cs) =
      if c = marker then ident.tails cs else [] := by
  rw [decides_ident.plain.tails_seq]
  show ((Reader.one (.single marker)).tails (c :: cs)).flatMap _ = _
  rw [Reader.tails_one_cons, CharSet.contains_single]
  by_cases hc : c = marker
  · rw [if_pos (beq_iff_eq.mpr hc), List.flatMap_singleton, if_pos hc]
  · rw [if_neg (mt beq_iff_eq.mp hc), if_neg hc]
    rfl

/-- The lexer decides a marker with an identifier behind it. -/
theorem decides_marked (marker : Char) :
    Decides (.seq (letter marker).readings ident) (marked? marker) := by
  refine ⟨(Reader.plain_one _).seq decides_ident.plain, fun cs => ?_, fun cs t ht => ?_⟩
  · cases cs with
    | nil =>
      rw [tails_marked_nil]
      rfl
    | cons c cs =>
      rw [tails_marked_cons]
      simp only [marked?]
      by_cases hc : c = marker
      · rw [if_pos hc, if_pos hc]
        exact decides_ident.head cs
      · rw [if_neg hc, if_neg hc]
        rfl
  · cases cs with
    | nil =>
      rw [tails_marked_nil] at ht
      cases ht
    | cons c cs =>
      rw [tails_marked_cons] at ht
      simp only [marked?]
      by_cases hc : c = marker
      · rw [if_pos hc] at ht ⊢
        exact decides_ident.others cs t ht
      · rw [if_neg hc] at ht
        cases ht

theorem marked?_of_unmarked {marker : Char} (hmarker : marker = '#' ∨ marker = '.')
    {cs : List Char} (h : Unmarked cs) : marked? marker cs = none := by
  obtain ⟨c, rest, rfl, hhash, hdot⟩ := h
  simp only [marked?]
  rw [if_neg]
  rintro rfl
  rcases hmarker with rfl | rfl
  · exact hhash rfl
  · exact hdot rfl

/-- **The longest reading**: the lexer decides the pattern of every rule. -/
theorem decides_rule (rule : Rule) : Decides (rulePattern rule).readings (readAs? rule) := by
  have hmarked : ∀ marker,
      Decides (chain (letter marker :: identParts)).readings (marked? marker) := by
    intro marker
    rw [readings_chain_cons]
    exact decides_marked marker
  have hcompound : ∀ marker, marker = '#' ∨ marker = '.' →
      Decides (chain (identParts ++ letter marker :: identParts)).readings
        fun cs => (ident? cs).bind (marked? marker) := by
    intro marker hmarker
    rw [readings_chain_append]
    exact decides_ident.seq (hmarked marker) fun cs => marked?_of_unmarked hmarker
  cases rule with
  | nameAndId => exact hcompound '#' (.inl rfl)
  | id => exact hmarked '#'
  | className => exact hmarked '.'
  | nameAndClass => exact hcompound '.' (.inr rfl)
  | name => exact decides_ident
  | pseudoClass => exact hmarked ':'

end TreeQuery.Grammar.Standard
