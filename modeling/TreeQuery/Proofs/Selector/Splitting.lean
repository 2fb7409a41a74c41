import TreeQuery.Criterion
import TreeQuery.Proofs.Grammar.Lexer
import TreeQuery.Text.Offset

/-! # Splitting — a text is parted at its first unescaped marker

    The splitter goes along a text once, with a flag that tells whether the next
    character is escaped. What it finds can be said without the flag, by the places
    of the text alone.

    * **Passing over**: what has no unescaped marker is passed over, and the flag
      behind it is all that matters for the rest.
    * **Places**: a place is escaped if the place in front of it has a backslash
      and is not escaped itself. The flag agrees with that at every place.
    * **Splits**: a text is split in the one way in which it can be spelled by a
      first part without an unescaped marker, the marker, and a second part.
    * **Offsets**: the two parts are slices of the text by byte offsets, and no
      slice is cut within a character.
    * **Joined parts**: what is joined by a marker is got back, whatever the second
      part holds.
-/

namespace TreeQuery

open Lexer

/-! ### Passing over -/

/-- The splitter stops at a marker, unless the marker is escaped or is a backslash itself. -/
theorem splitFrom_cons (marker : Char) (escaped : Bool) (c : Char) (cs : List Char) :
    splitFrom marker escaped (c :: cs) =
      if escaped = false ∧ c ≠ '\\' ∧ c = marker then some ([], cs)
      else (splitFrom marker (!escaped && c == '\\') cs).map (Prod.map (c :: ·) id) := by
  cases escaped with
  | true =>
    rw [if_neg fun hfound => Bool.noConfusion hfound.1]
    rfl
  | false =>
    rw [splitFrom]
    by_cases hc : c = '\\'
    · rw [if_pos hc, if_neg fun hfound => hfound.2.1 hc, hc]
      rfl
    · rw [if_neg hc]
      by_cases hmarker : c = marker
      · rw [if_pos hmarker, if_pos ⟨rfl, hc, hmarker⟩]
      · rw [if_neg hmarker, if_neg fun hfound => hmarker hfound.2.2, beq_false_of_ne hc]
        rfl

/-- A split is at a marker that is not escaped, and no such marker stands in front of it. -/
theorem splitFrom_eq_some {marker : Char} {escaped : Bool} {cs before after : List Char}
    (h : splitFrom marker escaped cs = some (before, after)) :
    cs = before ++ marker :: after ∧ splitFrom marker escaped before = none ∧
      escapesNext escaped before = false := by
  induction cs generalizing escaped before with
  | nil => cases escaped <;> cases h
  | cons c cs ih =>
    rw [splitFrom_cons] at h
    by_cases hfound : escaped = false ∧ c ≠ '\\' ∧ c = marker
    · rw [if_pos hfound] at h
      obtain ⟨rfl, rfl⟩ := Prod.mk.inj (Option.some.inj h)
      obtain ⟨rfl, _, rfl⟩ := hfound
      exact ⟨rfl, rfl, rfl⟩
    · -- a character that is passed over stands in front of the split of what follows
      rw [if_neg hfound] at h
      obtain ⟨⟨front, back⟩, hsplit, heq⟩ := Option.map_eq_some_iff.mp h
      obtain ⟨rfl, rfl⟩ := Prod.mk.inj heq
      obtain ⟨rfl, hundivided, hfront⟩ := ih hsplit
      rw [splitFrom_cons, if_neg hfound, hundivided, escapesNext_cons]
      exact ⟨rfl, rfl, hfront⟩

/-- A text is split at a marker, and no backslash escapes that marker. -/
theorem splitUnescaped_eq_some {marker : Char} {cs before after : List Char}
    (h : splitUnescaped marker cs = some (before, after)) :
    cs = before ++ marker :: after ∧ isEscaping before = false := by
  obtain ⟨hcs, -, hclosed⟩ := splitFrom_eq_some h
  exact ⟨hcs, hclosed⟩

/-- What has no unescaped marker is passed over. -/
theorem splitFrom_append {marker : Char} {escaped : Bool} {read : List Char}
    (h : splitFrom marker escaped read = none) (rest : List Char) :
    splitFrom marker escaped (read ++ rest) =
      (splitFrom marker (escapesNext escaped read) rest).map (Prod.map (read ++ ·) id) := by
  -- the state behind what is passed over goes along, since a backslash may stand at its end
  induction read generalizing escaped with
  | nil =>
    show _ = (splitFrom marker escaped rest).map id
    rw [Option.map_id]
    rfl
  | cons c read ih =>
    rw [splitFrom_cons] at h
    rw [List.cons_append, splitFrom_cons]
    by_cases hfound : escaped = false ∧ c ≠ '\\' ∧ c = marker
    · rw [if_pos hfound] at h
      cases h
    · rw [if_neg hfound] at h ⊢
      rw [ih (Option.map_eq_none_iff.mp h), Option.map_map, escapesNext_cons]
      rfl

/-- A text that the splitter passes over, without a backslash that escapes what comes next. -/
structure Passes (marker : Char) (read : List Char) : Prop where
  undivided : splitUnescaped marker read = none
  closed : isEscaping read = false

/-- What stands in front of the marker at which a text is split is passed over. -/
theorem passes_of_splitUnescaped {marker : Char} {cs before after : List Char}
    (h : splitUnescaped marker cs = some (before, after)) : Passes marker before := by
  obtain ⟨-, hundivided, hclosed⟩ := splitFrom_eq_some h
  exact ⟨hundivided, hclosed⟩

theorem Passes.splitUnescaped_append {marker : Char} {read : List Char} (h : Passes marker read)
    (rest : List Char) :
    splitUnescaped marker (read ++ rest) =
      (splitUnescaped marker rest).map (Prod.map (read ++ ·) id) := by
  have happend := splitFrom_append h.undivided rest
  rwa [escapesNext_false, h.closed] at happend

theorem Passes.append {marker : Char} {read more : List Char} (h : Passes marker read)
    (hmore : Passes marker more) : Passes marker (read ++ more) := by
  constructor
  · rw [h.splitUnescaped_append, hmore.undivided]
    rfl
  · rw [isEscaping_append h.closed, hmore.closed]

/-- A text is split at the first marker behind what is passed over. -/
theorem Passes.splitUnescaped_marker {marker : Char} (hmarker : marker ≠ '\\') {read : List Char}
    (h : Passes marker read) (rest : List Char) :
    splitUnescaped marker (read ++ marker :: rest) = some (read, rest) := by
  have hhead : splitUnescaped marker (marker :: rest) = some ([], rest) := by
    show splitFrom marker false (marker :: rest) = _
    rw [splitFrom_cons, if_pos ⟨rfl, hmarker, rfl⟩]
  rw [h.splitUnescaped_append, hhead]
  show some (read ++ [], rest) = _
  rw [List.append_nil]

theorem passes_nil (marker : Char) : Passes marker [] := ⟨rfl, rfl⟩

theorem passes_singleton {marker c : Char} (hmarker : c ≠ marker) (hc : c ≠ '\\') :
    Passes marker [c] := by
  constructor
  · show splitFrom marker false [c] = none
    rw [splitFrom_cons, if_neg fun hfound => hmarker hfound.2.2]
    rfl
  · exact beq_false_of_ne hc

/-- A backslash and the character behind it are passed over, be it a marker or a backslash. -/
theorem passes_escaped (marker c : Char) : Passes marker ['\\', c] := by
  constructor
  · show splitFrom marker false ['\\', c] = none
    rw [splitFrom_cons, if_neg fun hfound => hfound.2.1 rfl]
    rfl
  · rfl

/-! ### Places -/

/-- A place is escaped if the place in front of it has a backslash and is not escaped itself. The
    place behind the last character counts, too. -/
def EscapedAt (cs : List Char) : Nat → Prop
  | 0 => False
  | n + 1 => cs[n]? = some '\\' ∧ ¬EscapedAt cs n

instance EscapedAt.decidable (cs : List Char) : (n : Nat) → Decidable (EscapedAt cs n)
  | 0 => .isFalse id
  | n + 1 =>
    have := EscapedAt.decidable cs n
    inferInstanceAs (Decidable (cs[n]? = some '\\' ∧ ¬EscapedAt cs n))

/-- A character of a text stands somewhere in it without being escaped. -/
def HasUnescaped (marker : Char) (cs : List Char) : Prop :=
  ∃ n, cs[n]? = some marker ∧ ¬EscapedAt cs n

instance (marker : Char) (cs : List Char) : Decidable (HasUnescaped marker cs) :=
  decidable_of_iff (∃ n < cs.length, cs[n]? = some marker ∧ ¬EscapedAt cs n) <| by
    constructor
    · rintro ⟨n, _, hn⟩
      exact ⟨n, hn⟩
    · rintro ⟨n, hget, hn⟩
      exact ⟨n, (List.getElem?_eq_some_iff.mp hget).1, hget, hn⟩

/-- A text that ends in a backslash that is not escaped. -/
def EndsInBackslash (cs : List Char) : Prop :=
  ∃ front, cs = front ++ ['\\'] ∧ ¬EscapedAt cs front.length

/-- A text ends in an unescaped backslash if the place behind it is escaped. -/
theorem endsInBackslash_iff {cs : List Char} : EndsInBackslash cs ↔ EscapedAt cs cs.length := by
  constructor
  · rintro ⟨front, rfl, hfront⟩
    rw [List.length_append]
    exact ⟨List.getElem?_concat_length, hfront⟩
  · intro h
    rcases List.eq_nil_or_concat cs with rfl | ⟨front, c, hcs⟩
    · cases h
    · rw [List.concat_eq_append] at hcs
      rw [hcs, List.length_append] at h
      obtain ⟨hget, hfront⟩ := h
      rw [List.getElem?_concat_length, Option.some.injEq] at hget
      rw [← hcs] at hfront
      rw [hget] at hcs
      exact ⟨front, hcs, hfront⟩

instance : DecidablePred EndsInBackslash := fun _ => decidable_of_iff _ endsInBackslash_iff.symm

/-- The flag of a run over a text agrees with what is escaped at every place of it. -/
theorem escapedAt_iff {cs : List Char} {n : Nat} (hn : n ≤ cs.length) :
    EscapedAt cs n ↔ isEscaping (cs.take n) = true := by
  -- the bound is needed, as a run stops at the end of the text and the places go on
  induction n with
  | zero => exact ⟨False.elim, nofun⟩
  | succ n ih =>
    have hlt : n < cs.length := hn
    rw [List.take_succ_eq_append_getElem hlt, isEscaping_concat, Bool.and_eq_true,
      Bool.not_eq_true', beq_iff_eq, ← Bool.not_eq_true, ← ih (Nat.le_of_lt hlt), and_comm]
    show cs[n]? = some '\\' ∧ _ ↔ _
    rw [List.getElem?_eq_getElem hlt, Option.some.injEq]

theorem endsInBackslash_iff_isEscaping {cs : List Char} :
    EndsInBackslash cs ↔ isEscaping cs = true := by
  rw [endsInBackslash_iff, escapedAt_iff (Nat.le_refl _), List.take_length]

/-! ### Splits -/

/-- The splitter passes over a whole text if the flag is up at every marker of it. -/
theorem splitFrom_eq_none_iff {marker : Char} (hmarker : marker ≠ '\\') {escaped : Bool}
    {cs : List Char} : splitFrom marker escaped cs = none ↔
      ∀ n, cs[n]? = some marker → escapesNext escaped (cs.take n) = true := by
  -- for every flag at once, since a backslash at the front raises it for the rest
  induction cs generalizing escaped with
  | nil =>
    constructor
    · intro _ n hn
      cases hn
    · intro _
      cases escaped <;> rfl
  | cons c cs ih =>
    rw [splitFrom_cons]
    by_cases hfound : escaped = false ∧ c ≠ '\\' ∧ c = marker
    · rw [if_pos hfound]
      obtain ⟨rfl, _, rfl⟩ := hfound
      constructor
      · intro h
        cases h
      · intro h
        -- the marker at the front is not escaped
        cases h 0 rfl
    · rw [if_neg hfound, Option.map_eq_none_iff, ih]
      constructor
      · intro h n hn
        cases n with
        | zero =>
          -- only the flag can have kept the splitter from stopping here
          obtain rfl : c = marker := Option.some.inj hn
          cases escaped with
          | true => rfl
          | false => exact absurd ⟨rfl, hmarker, rfl⟩ hfound
        | succ n => exact h n hn
      · intro h n hn
        exact h (n + 1) hn

/-- A text without an unescaped marker is not split. -/
theorem splitUnescaped_eq_none_iff {marker : Char} (hmarker : marker ≠ '\\') {cs : List Char} :
    splitUnescaped marker cs = none ↔ ¬HasUnescaped marker cs := by
  have hplace : ∀ n, cs[n]? = some marker →
      (EscapedAt cs n ↔ escapesNext false (cs.take n) = true) := by
    intro n hn
    exact escapedAt_iff (Nat.le_of_lt (List.getElem?_eq_some_iff.mp hn).1)
  rw [splitUnescaped, splitFrom_eq_none_iff hmarker]
  constructor
  · rintro h ⟨n, hn, hescaped⟩
    exact hescaped ((hplace n hn).mpr (h n hn))
  · intro h n hn
    rw [← hplace n hn]
    by_contra hescaped
    exact h ⟨n, hn, hescaped⟩

/-- A text that may stand in front of a marker: it has no unescaped marker of its own, and it does
    not end in a backslash that would escape the one behind it. -/
structure Guarded (marker : Char) (cs : List Char) : Prop where
  unmarked : ¬HasUnescaped marker cs
  closed : ¬EndsInBackslash cs

instance (marker : Char) (cs : List Char) : Decidable (Guarded marker cs) :=
  decidable_of_iff (¬HasUnescaped marker cs ∧ ¬EndsInBackslash cs)
    ⟨fun h => ⟨h.1, h.2⟩, fun h => ⟨h.unmarked, h.closed⟩⟩

/-- What may stand in front of a marker is what the splitter passes over. -/
theorem passes_iff_guarded {marker : Char} (hmarker : marker ≠ '\\') {cs : List Char} :
    Passes marker cs ↔ Guarded marker cs := by
  constructor
  · intro h
    refine ⟨(splitUnescaped_eq_none_iff hmarker).mp h.undivided, ?_⟩
    rw [endsInBackslash_iff_isEscaping, h.closed]
    exact Bool.false_ne_true
  · intro h
    refine ⟨(splitUnescaped_eq_none_iff hmarker).mpr h.unmarked, ?_⟩
    rw [← Bool.not_eq_true, ← endsInBackslash_iff_isEscaping]
    exact h.closed

/-- A text is spelled by two parts with a marker between them, which is the first unescaped marker
    of the text. -/
structure IsSplit (marker : Char) (text before after : List Char) : Prop where
  spelled : text = before ++ marker :: after
  guarded : Guarded marker before

instance (marker : Char) (text before after : List Char) :
    Decidable (IsSplit marker text before after) :=
  decidable_of_iff (text = before ++ marker :: after ∧ Guarded marker before)
    ⟨fun h => ⟨h.1, h.2⟩, fun h => ⟨h.spelled, h.guarded⟩⟩

/-- A text is split in the way in which it is spelled. -/
theorem splitUnescaped_eq_some_iff {marker : Char} (hmarker : marker ≠ '\\')
    {text before after : List Char} :
    splitUnescaped marker text = some (before, after) ↔ IsSplit marker text before after := by
  constructor
  · intro h
    exact ⟨(splitUnescaped_eq_some h).1,
      (passes_iff_guarded hmarker).mp (passes_of_splitUnescaped h)⟩
  · rintro ⟨rfl, hguarded⟩
    exact ((passes_iff_guarded hmarker).mpr hguarded).splitUnescaped_marker hmarker after

theorem IsSplit.unique {marker : Char} (hmarker : marker ≠ '\\')
    {text before after before' after' : List Char} (h : IsSplit marker text before after)
    (h' : IsSplit marker text before' after') : before = before' ∧ after = after' := by
  rw [← splitUnescaped_eq_some_iff hmarker] at h h'
  exact Prod.mk.inj (Option.some.inj (h.symm.trans h'))

/-! ### Offsets -/

/-- The byte offset of the first unescaped marker, given the offset at which a text starts and
    whether its first character is escaped. -/
def markerFrom (marker : Char) : Bool → Nat → List Char → Option Nat
  | _, _, [] => none
  | true, offset, c :: cs => markerFrom marker false (offset + c.utf8Size) cs
  | false, offset, c :: cs =>
    if c = '\\' then markerFrom marker true (offset + c.utf8Size) cs
    else if c = marker then some offset
    else markerFrom marker false (offset + c.utf8Size) cs

/-- The slices of a text in front of and behind its first unescaped marker, if it has one and no
    slice is cut within a character. -/
def slicesAtMarker? (marker : Char) (text : List Char) : Option (List Char × List Char) := do
  let offset ← markerFrom marker false 0 text
  let before ← Text.takeBytes? offset text
  let after ← Text.dropBytes? (offset + marker.utf8Size) text
  pure (before, after)

/-- The marker stands behind the bytes of what is passed over. -/
theorem markerFrom_eq (marker : Char) (escaped : Bool) (offset : Nat) (cs : List Char) :
    markerFrom marker escaped offset cs =
      (splitFrom marker escaped cs).map fun (before, _) => offset + Text.byteLength before := by
  induction cs generalizing escaped offset with
  | nil => cases escaped <;> rfl
  | cons c cs ih =>
    -- a character that is passed over moves the offset by its own width
    have hpassed : ∀ escaped', markerFrom marker escaped' (offset + c.utf8Size) cs =
        ((splitFrom marker escaped' cs).map fun (before, after) => (c :: before, after)).map
          fun (before, _) => offset + Text.byteLength before := by
      intro escaped'
      rw [ih, Option.map_map]
      congr 1
      funext ⟨before, _⟩
      exact Nat.add_assoc ..
    cases escaped with
    | true => exact hpassed false
    | false =>
      rw [markerFrom, splitFrom]
      by_cases hc : c = '\\'
      · rw [if_pos hc, if_pos hc]
        exact hpassed true
      · rw [if_neg hc, if_neg hc]
        by_cases hmarker : c = marker
        · rw [if_pos hmarker, if_pos hmarker]
          rfl
        · rw [if_neg hmarker, if_neg hmarker]
          exact hpassed false

/-- The two parts of a text are its slices, none of which fails. -/
theorem slicesAtMarker?_eq (marker : Char) (text : List Char) :
    slicesAtMarker? marker text = splitUnescaped marker text := by
  have hoffset : markerFrom marker false 0 text =
      (splitUnescaped marker text).map fun (before, _) => 0 + Text.byteLength before :=
    markerFrom_eq marker false 0 text
  unfold slicesAtMarker?
  rw [hoffset]
  cases hsplit : splitUnescaped marker text with
  | none => rfl
  | some split =>
    obtain ⟨before, after⟩ := split
    obtain ⟨rfl, -⟩ := splitUnescaped_eq_some hsplit
    -- both offsets are ends of a lead of the text, so there is a slice at each of them
    have htake := Text.takeBytes?_byteLength_append before (marker :: after)
    have hdrop : Text.dropBytes? (Text.byteLength before + marker.utf8Size)
        (before ++ marker :: after) = some after := by
      have hbehind := Text.dropBytes?_byteLength_append (before ++ [marker]) after
      rwa [Text.byteLength_append, List.append_assoc] at hbehind
    show ((Text.takeBytes? (0 + Text.byteLength before) _).bind fun front =>
      (Text.dropBytes? (0 + Text.byteLength before + marker.utf8Size) _).bind fun back =>
        some (front, back)) = _
    rw [Nat.zero_add, htake, hdrop]
    rfl

/-! ### Joined parts -/

theorem parts_of_splitUnescaped {marker : Char} {text : String} {before after : List Char}
    (h : splitUnescaped marker text.toList = some (before, after)) :
    parts marker text = (String.ofList before, String.ofList after) := by
  unfold parts
  rw [h]

/-- What is joined by a marker is got back if and only if the first part may stand in front of
    it. -/
theorem parts_joined_iff {marker : Char} (hmarker : marker ≠ '\\') {text first last : String}
    (htext : text.toList = first.toList ++ marker :: last.toList) :
    parts marker text = (first, last) ↔ Guarded marker first.toList := by
  constructor
  · intro h
    cases hsplit : splitUnescaped marker text.toList with
    | none =>
      -- the first part would be the whole text, and there is no room for the marker
      unfold parts at h
      rw [hsplit] at h
      obtain ⟨rfl, -⟩ := Prod.mk.inj h
      exact absurd htext (by simp)
    | some split =>
      obtain ⟨before, after⟩ := split
      rw [parts_of_splitUnescaped hsplit] at h
      obtain ⟨rfl, -⟩ := Prod.mk.inj h
      rw [String.toList_ofList]
      exact ((splitUnescaped_eq_some_iff hmarker).mp hsplit).guarded
  · intro h
    have hsplit := (splitUnescaped_eq_some_iff hmarker).mpr ⟨htext, h⟩
    rw [parts_of_splitUnescaped hsplit, String.ofList_toList, String.ofList_toList]

/-- **Main theorem**: a text is split at a marker exactly if it is spelled by a first part, the
    marker and a second part, where the first part has no unescaped marker and does not end in an
    unescaped backslash. There is one such way at most, it is found by the slices between byte
    offsets as well, and there is none exactly if the text has no unescaped marker. So a name and
    an id or a class are got back from their joined text exactly if the name may stand in front of
    the marker, whatever the id or the class holds. -/
theorem splitUnescaped_iff_isSplit_and_parse_joined :
    (∀ marker : Char, marker ≠ '\\' → ∀ text : List Char,
      (∀ before after, splitUnescaped marker text = some (before, after) ↔
        IsSplit marker text before after) ∧
      (∀ before after before' after', IsSplit marker text before after →
        IsSplit marker text before' after' → before = before' ∧ after = after') ∧
      (splitUnescaped marker text = none ↔ ¬HasUnescaped marker text) ∧
      slicesAtMarker? marker text = splitUnescaped marker text) ∧
    (∀ name key : String,
      Criterion.parse .nameAndId (name ++ "#" ++ key) = .nameAndId name key ↔
        Guarded '#' name.toList) ∧
    ∀ name token : String,
      Criterion.parse .nameAndClass (name ++ "." ++ token) = .nameAndClass name token ↔
        Guarded '.' name.toList := by
  refine ⟨?_, ?_, ?_⟩
  · intro marker hmarker text
    refine ⟨?_, ?_, splitUnescaped_eq_none_iff hmarker, slicesAtMarker?_eq marker text⟩
    · intro before after
      exact splitUnescaped_eq_some_iff hmarker
    · intro before after before' after' h h'
      exact h.unique hmarker h'
  · intro name key
    have htext : (name ++ "#" ++ key).toList = name.toList ++ '#' :: key.toList := by simp
    rw [← parts_joined_iff (by decide) htext, Criterion.parse, Criterion.nameAndId.injEq,
      Prod.ext_iff]
  · intro name token
    have htext : (name ++ "." ++ token).toList = name.toList ++ '.' :: token.toList := by simp
    rw [← parts_joined_iff (by decide) htext, Criterion.parse, Criterion.nameAndClass.injEq,
      Prod.ext_iff]

/-- The marker behind two backslashes is the first one, and there are others on both sides. -/
theorem splitUnescaped_iff_isSplit_backslashes :
    '#' ≠ '\\' ∧
    IsSplit '#' "x\\#é\\\\#z#\\".toList "x\\#é\\\\".toList "z#\\".toList ∧
    splitUnescaped '#' "x\\#é\\\\#z#\\".toList = some ("x\\#é\\\\".toList, "z#\\".toList) ∧
    (∀ before after, IsSplit '#' "x\\#é\\\\#z#\\".toList before after →
      "x\\#é\\\\".toList = before ∧ "z#\\".toList = after) ∧
    ¬HasUnescaped '#' "é\\\\\\#\\".toList ∧ splitUnescaped '#' "é\\\\\\#\\".toList = none ∧
    Criterion.parse .nameAndId ("x\\#é\\\\" ++ "#" ++ "z#\\") = .nameAndId "x\\#é\\\\" "z#\\" ∧
    Criterion.parse .nameAndClass ("a\\.b" ++ "." ++ "c.d\\") = .nameAndClass "a\\.b" "c.d\\" := by
  obtain ⟨hsplits, hid, hclass⟩ := splitUnescaped_iff_isSplit_and_parse_joined
  obtain ⟨hsome, hunique, -⟩ := hsplits '#' (by decide) "x\\#é\\\\#z#\\".toList
  obtain ⟨-, -, hnone, -⟩ := hsplits '#' (by decide) "é\\\\\\#\\".toList
  have hsplit : IsSplit '#' "x\\#é\\\\#z#\\".toList "x\\#é\\\\".toList "z#\\".toList := by
    decide +kernel
  have hunmarked : ¬HasUnescaped '#' "é\\\\\\#\\".toList := by decide +kernel
  have hname : Guarded '.' "a\\.b".toList := by decide +kernel
  refine ⟨by decide, hsplit, (hsome _ _).mpr hsplit, ?_, hunmarked, hnone.mpr hunmarked,
    (hid _ _).mpr hsplit.guarded, (hclass _ _).mpr hname⟩
  intro before after h
  exact hunique _ _ _ _ hsplit h

end TreeQuery
