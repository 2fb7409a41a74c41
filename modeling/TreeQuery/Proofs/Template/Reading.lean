import Mathlib.Data.List.Chain
import TreeQuery.Template.Basic
import TreeQuery.Text.Offset

/-! # Reading — templates and the pieces that they are written from

    A template is read from left to right by a reader that keeps an offset, looks
    ahead for a brace, and passes over a name once a reference has opened. Reading and
    writing are inverse to each other, and the first reference that is opened and
    not closed is what a fault reports:

    * **Openings**: the offsets at which a reference opens, and the texts in which
      none does. What seals a text does not go on with an opening at its end.
    * **Names**: what may stand in a reference, a byte for each character.
    * **Steps**: the reader takes a character that opens nothing, or a whole
      reference, or it fails; a text is used up by such steps.
    * **Pieces**: what is read is proper, and gives back the template when written.
      Proper pieces are read back, since no reference opens across a border.
    * **Faults**: there is no opening within a reference, so the reader meets each
      of them, and the first one that is not closed stops it.

    Main statement: `read_exact`
-/

namespace TreeQuery.Template

open Text

/-! ### Openings -/

/-- Whether a reference opens at the start of a text. -/
def opens : List Char → Bool
  | '#' :: '\x7b' :: c :: _ => isNameStart c
  | _ => false

/-- A reference opens at an offset of a text: there stands a hash with a brace, and what is behind
    the brace starts like a name. -/
def OpensAt (cs : List Char) (offset : Nat) (behind : List Char) : Prop :=
  ∃ before, cs = before ++ '#' :: '\x7b' :: behind ∧ offset = byteLength before ∧
    ∃ c rest, behind = c :: rest ∧ isNameStart c = true

/-- A text in which no reference opens. -/
def Inert (cs : List Char) : Prop := ∀ offset behind, ¬OpensAt cs offset behind

theorem opens_iff {cs : List Char} :
    opens cs = true ↔ ∃ c rest, cs = '#' :: '\x7b' :: c :: rest ∧ isNameStart c = true := by
  unfold opens
  split
  · simp
  · next hother =>
    simp only [Bool.false_eq_true, false_iff, not_exists, not_and]
    rintro c rest rfl
    exact absurd rfl (hother c rest)

theorem not_opensAt_nil {offset : Nat} {behind : List Char} : ¬OpensAt [] offset behind := by
  rintro ⟨before, hcs, -⟩
  simp at hcs

/-- A reference opens at the start of a text, or behind its first character. -/
theorem opensAt_cons_iff {c : Char} {cs behind : List Char} {offset : Nat} :
    OpensAt (c :: cs) offset behind ↔
      (offset = 0 ∧ opens (c :: cs) = true ∧ c :: cs = '#' :: '\x7b' :: behind) ∨
      ∃ later, offset = c.utf8Size + later ∧ OpensAt cs later behind := by
  constructor
  · rintro ⟨before, hcs, rfl, d, rest, rfl, hd⟩
    cases before with
    | nil => exact .inl ⟨rfl, opens_iff.mpr ⟨d, rest, hcs, hd⟩, hcs⟩
    | cons b before =>
      obtain ⟨rfl, hrest⟩ := List.cons.inj hcs
      exact .inr ⟨_, rfl, before, hrest, rfl, d, rest, rfl, hd⟩
  · rintro (⟨rfl, hopens, hcs⟩ | ⟨later, rfl, before, rfl, rfl, hbehind⟩)
    · obtain ⟨d, rest, hcs', hd⟩ := opens_iff.mp hopens
      refine ⟨[], hcs, rfl, d, rest, ?_, hd⟩
      simpa using hcs.symm.trans hcs'
    · exact ⟨c :: before, rfl, rfl, hbehind⟩

/-- In a text without a hash no reference opens. -/
theorem opensAt_append_iff {front cs behind : List Char} (hfront : '#' ∉ front) {offset : Nat} :
    OpensAt (front ++ cs) offset behind ↔
      ∃ later, offset = byteLength front + later ∧ OpensAt cs later behind := by
  induction front generalizing offset with
  | nil => simp
  | cons c front ih =>
    have hc : c ≠ '#' := fun heq => hfront (heq ▸ List.mem_cons_self)
    have hnone : opens (c :: (front ++ cs)) = false := by
      rw [Bool.eq_false_iff]
      intro hopens
      obtain ⟨d, rest, hcs, -⟩ := opens_iff.mp hopens
      exact hc (List.cons.inj hcs).1
    rw [List.cons_append, opensAt_cons_iff, hnone]
    simp only [ih fun hmem => hfront (List.mem_cons_of_mem c hmem), byteLength_cons]
    constructor
    · rintro (⟨-, hopens, -⟩ | ⟨_, rfl, later, rfl, hlater⟩)
      · cases hopens
      · exact ⟨later, by omega, hlater⟩
    · rintro ⟨later, rfl, hlater⟩
      exact .inr ⟨_, by omega, later, rfl, hlater⟩

theorem inert_nil : Inert [] := fun _ _ => not_opensAt_nil

theorem inert_cons_iff {c : Char} {cs : List Char} :
    Inert (c :: cs) ↔ opens (c :: cs) = false ∧ Inert cs := by
  constructor
  · intro h
    refine ⟨?_, fun offset behind hopens => h _ behind (opensAt_cons_iff.mpr
      (.inr ⟨offset, rfl, hopens⟩))⟩
    rw [Bool.eq_false_iff]
    intro hopens
    obtain ⟨d, rest, hcs, -⟩ := opens_iff.mp hopens
    exact h 0 (d :: rest) (opensAt_cons_iff.mpr (.inl ⟨rfl, hopens, hcs⟩))
  · rintro ⟨hnone, h⟩ offset behind hopens
    rcases opensAt_cons_iff.mp hopens with ⟨-, hstart, -⟩ | ⟨later, -, hlater⟩
    · rw [hnone] at hstart
      cases hstart
    · exact h later behind hlater

/-- What can stand behind a text without going on with an opening at its end. -/
def Seals (rest : List Char) : Prop :=
  ∀ c, rest.head? = some c → c ≠ '\x7b' ∧ isNameStart c = false

theorem seals_nil : Seals [] := by
  intro c hc
  cases hc

theorem seals_cons {c : Char} (hbrace : c ≠ '\x7b') (hname : isNameStart c = false)
    (cs : List Char) : Seals (c :: cs) := by
  intro d hd
  obtain rfl : c = d := by simpa using hd
  exact ⟨hbrace, hname⟩

/-- No reference opens across the border to what seals a text. -/
theorem opens_append_of_seals {c : Char} {cs rest : List Char} (hnone : opens (c :: cs) = false)
    (hrest : Seals rest) : opens (c :: (cs ++ rest)) = false := by
  rw [Bool.eq_false_iff] at hnone ⊢
  intro hopens
  obtain ⟨d, behind, heq, hd⟩ := opens_iff.mp hopens
  -- the border lies behind the hash, behind the brace, or behind the first letter of the name
  match cs with
  | [] =>
    obtain rfl : rest = '\x7b' :: d :: behind := (List.cons.inj heq).2
    exact (hrest _ rfl).1 rfl
  | [b] =>
    obtain rfl : rest = d :: behind := (List.cons.inj (List.cons.inj heq).2).2
    rw [(hrest _ rfl).2] at hd
    cases hd
  | b :: e :: cs =>
    simp only [List.cons_append, List.cons.injEq] at heq
    obtain ⟨rfl, rfl, rfl, -⟩ := heq
    exact hnone (opens_iff.mpr ⟨e, cs, rfl, hd⟩)

theorem Inert.append {text rest : List Char} (h : Inert text) (hrest : Inert rest)
    (hseals : Seals rest) : Inert (text ++ rest) := by
  induction text with
  | nil => exact hrest
  | cons c text ih =>
    obtain ⟨hnone, htext⟩ := inert_cons_iff.mp h
    exact inert_cons_iff.mpr ⟨opens_append_of_seals hnone hseals, ih htext⟩

/-! ### Names -/

/-- A name: a letter or an underscore, and then letters, digits and underscores. -/
def IsName (name : List Char) : Prop :=
  ∃ c rest, name = c :: rest ∧ isNameStart c = true ∧ ∀ x ∈ rest, isNameChar x = true

theorem isNameChar_of_isNameStart {c : Char} (h : isNameStart c = true) : isNameChar c = true := by
  simp only [isNameStart, isNameChar, Char.isAlphanum, Bool.or_eq_true] at h ⊢
  exact h.imp_left .inl

theorem IsName.isNameChar {name : List Char} (h : IsName name) :
    ∀ c ∈ name, Template.isNameChar c = true := by
  obtain ⟨c, rest, rfl, hc, hrest⟩ := h
  exact List.forall_mem_cons.mpr ⟨isNameChar_of_isNameStart hc, hrest⟩

/-- The characters of a name are one byte wide, so its reader may count them. -/
theorem utf8Size_of_isNameChar {c : Char} (h : isNameChar c = true) : c.utf8Size = 1 := by
  rw [Char.utf8Size_eq_one_iff]
  have hcases : (((c.isUpper || c.isLower) || c.isDigit) || c == '_') = true := h
  simp only [Bool.or_eq_true, beq_iff_eq] at hcases
  rcases hcases with ((hupper | hlower) | hdigit) | rfl
  · have hbounds : c.val ≥ 65 ∧ c.val ≤ 90 := of_decide_eq_true hupper
    exact UInt32.le_trans hbounds.2 (by decide)
  · have hbound := of_decide_eq_true (Bool.and_eq_true_iff.mp hlower).2
    exact UInt32.le_trans hbound (by decide)
  · have hbound := of_decide_eq_true (Bool.and_eq_true_iff.mp hdigit).2
    exact UInt32.le_trans hbound (by decide)
  · decide

theorem byteLength_of_isNameChar {name : List Char} (h : ∀ c ∈ name, isNameChar c = true) :
    byteLength name = name.length := by
  induction name with
  | nil => rfl
  | cons c name ih =>
    obtain ⟨hc, hname⟩ := List.forall_mem_cons.mp h
    simp only [byteLength_cons, List.length_cons, utf8Size_of_isNameChar hc, ih hname]
    omega

theorem hash_notMem_of_isNameChar {name : List Char} (h : ∀ c ∈ name, isNameChar c = true) :
    '#' ∉ name := by
  intro hmem
  have hhash := h '#' hmem
  revert hhash
  decide

/-- Whether the name behind an opening is followed by a brace. -/
def Closes (behind : List Char) : Prop := (behind.dropWhile isNameChar).head? = some '\x7d'

theorem closes_name_append {name : List Char} (h : ∀ c ∈ name, isNameChar c = true)
    (cs : List Char) : Closes (name ++ '\x7d' :: cs) := by
  have hbrace : isNameChar '\x7d' = false := by decide
  rw [Closes, List.dropWhile_append_of_pos h, List.dropWhile_cons_of_neg (by simp [hbrace])]
  rfl

/-- What stands behind an opening that is closed is a name with a brace. -/
theorem exists_of_closes {c : Char} {rest : List Char} (hc : isNameStart c = true)
    (h : Closes (c :: rest)) :
    ∃ name cs, c :: rest = name ++ '\x7d' :: cs ∧ IsName name := by
  have hchar := isNameChar_of_isNameStart hc
  rw [Closes, List.dropWhile_cons_of_pos hchar] at h
  obtain ⟨cs, hcs⟩ := List.head?_eq_some_iff.mp h
  refine ⟨c :: rest.takeWhile isNameChar, cs, ?_, c, _, rfl, hc, fun x hx => ?_⟩
  · rw [List.cons_append, ← hcs, List.takeWhile_append_dropWhile]
  · exact List.all_eq_true.mp List.all_takeWhile x hx

/-! ### Steps -/

/-- A text is used up by the steps of a reader: it takes a character that opens nothing, or a
    reference as a whole, and it stops where a reference opens that is not closed. -/
@[elab_as_elim]
theorem text_induction {motive : List Char → Prop} (nil : motive [])
    (literal : ∀ c cs, opens (c :: cs) = false → motive cs → motive (c :: cs))
    (reference : ∀ name cs, IsName name → motive cs →
      motive ('#' :: '\x7b' :: (name ++ '\x7d' :: cs)))
    (unclosed : ∀ behind, opens ('#' :: '\x7b' :: behind) = true → ¬Closes behind →
      motive ('#' :: '\x7b' :: behind))
    (cs : List Char) : motive cs := by
  -- by induction on the length, since a reference is taken as a whole
  induction hlength : cs.length using Nat.strongRecOn generalizing cs with
  | ind n ih =>
    cases cs with
    | nil => exact nil
    | cons c cs =>
      cases hopens : opens (c :: cs) with
      | false => exact literal c cs hopens (ih cs.length (by simp [← hlength]) cs rfl)
      | true =>
        obtain ⟨d, rest, hcs, hd⟩ := opens_iff.mp hopens
        by_cases hcloses : Closes (d :: rest)
        · obtain ⟨name, after, hbehind, hname⟩ := exists_of_closes hd hcloses
          rw [hcs, hbehind] at hlength ⊢
          refine reference name after hname (ih after.length ?_ after rfl)
          simp only [List.length_cons, List.length_append] at hlength
          omega
        · rw [hcs] at hopens ⊢
          exact unclosed _ hopens hcloses

theorem map_eq_ok_iff {α β : Type} {x : Except Fault α} {f : α → β} {b : β} :
    x.map f = .ok b ↔ ∃ a, x = .ok a ∧ f a = b := by
  cases x <;> simp [Except.map]

theorem map_eq_error_iff {α β : Type} {x : Except Fault α} {f : α → β} {fault : Fault} :
    x.map f = .error fault ↔ x = .error fault := by
  cases x <;> simp [Except.map]

theorem readFrom_nil (offset : Nat) : readFrom offset .text [] = .ok [] := by
  rw [readFrom]

/-- A character that opens nothing is taken into a literal. -/
theorem readFrom_cons {c : Char} {cs : List Char} (h : opens (c :: cs) = false) (offset : Nat) :
    readFrom offset .text (c :: cs) =
      (readFrom (offset + c.utf8Size) .text cs).map (growLiteral c) := by
  -- a hash with a brace has a rule of its own, which looks one character further ahead
  by_cases hhash : c = '#' ∧ ∃ d rest, cs = '\x7b' :: d :: rest
  · obtain ⟨rfl, d, rest, rfl⟩ := hhash
    have hd : isNameStart d = false := h
    rw [readFrom, if_neg (by simp [hd])]
    rfl
  · rw [readFrom]
    rintro d rest rfl rfl
    exact hhash ⟨rfl, d, rest, rfl⟩

theorem readFrom_name_append (offset opening : Nat) {run : List Char}
    (hrun : ∀ c ∈ run, isNameChar c = true) (read rest : List Char) :
    readFrom offset (.name opening read) (run ++ rest) =
      readFrom (offset + run.length) (.name opening (run.reverse ++ read)) rest := by
  induction run generalizing offset read with
  | nil => rfl
  | cons c run ih =>
    obtain ⟨hc, hrun⟩ := List.forall_mem_cons.mp hrun
    rw [List.cons_append, readFrom, if_pos hc, ih (offset + 1) hrun]
    simp only [List.length_cons, List.reverse_cons, List.append_assoc, List.singleton_append]
    congr 1
    omega

/-- Behind an opening the reader passes over name characters. -/
theorem readFrom_opening {run rest : List Char}
    (hopens : opens ('#' :: '\x7b' :: (run ++ rest)) = true)
    (hrun : ∀ c ∈ run, isNameChar c = true) (offset : Nat) :
    readFrom offset .text ('#' :: '\x7b' :: (run ++ rest)) =
      readFrom (offset + 2 + run.length) (.name offset run.reverse) rest := by
  obtain ⟨d, behind, hcs, hd⟩ := opens_iff.mp hopens
  have hname := readFrom_name_append (offset + 2) offset hrun [] rest
  rw [List.append_nil] at hname
  have hbehind : run ++ rest = d :: behind := by simpa using hcs
  rw [← hname, hbehind, readFrom, if_pos hd]

/-- A reference that is closed is taken as a whole. -/
theorem readFrom_reference {name : List Char} (hname : IsName name) (cs : List Char)
    (offset : Nat) :
    readFrom offset .text ('#' :: '\x7b' :: (name ++ '\x7d' :: cs)) =
      (readFrom (offset + (name.length + 3)) .text cs).map (.reference name :: ·) := by
  have hopens : opens ('#' :: '\x7b' :: (name ++ '\x7d' :: cs)) = true := by
    obtain ⟨c, rest, rfl, hc, -⟩ := hname
    exact hc
  have hbrace : isNameChar '\x7d' = false := by decide
  rw [readFrom_opening hopens hname.isNameChar, readFrom, if_neg (by simp [hbrace]), if_pos rfl,
    List.reverse_reverse]
  congr 2
  omega

/-- The fault of a reference that opens at an offset and is not closed. -/
def unclosed (offset : Nat) (behind : List Char) : Fault where
  problem := if behind.dropWhile isNameChar = [] then .missingBrace else .invalidReference
  position := offset
  name := some (String.ofList (behind.takeWhile isNameChar))

/-- A reference that is not closed is a fault. -/
theorem readFrom_unclosed {behind : List Char} (hopens : opens ('#' :: '\x7b' :: behind) = true)
    (h : ¬Closes behind) (offset : Nat) :
    readFrom offset .text ('#' :: '\x7b' :: behind) = .error (unclosed offset behind) := by
  have hsplit := (List.takeWhile_append_dropWhile (p := isNameChar) (l := behind)).symm
  have hrun : ∀ c ∈ behind.takeWhile isNameChar, isNameChar c = true :=
    List.all_eq_true.mp List.all_takeWhile
  have hread := readFrom_opening (hsplit ▸ hopens) hrun offset
  rw [← hsplit] at hread
  rw [hread]
  cases hrest : behind.dropWhile isNameChar with
  | nil => rw [readFrom, unclosed, if_pos hrest, List.reverse_reverse]
  | cons c rest =>
    -- the run of name characters is as long as it can be, and no brace stands behind it
    have hstop : ¬isNameChar c = true := by
      have hhead := List.head?_dropWhile_not isNameChar behind
      rw [hrest] at hhead
      simpa using hhead
    have hbrace : c ≠ '\x7d' := by
      rintro rfl
      exact h (by rw [Closes, hrest]; rfl)
    rw [readFrom, if_neg hstop, if_neg hbrace, unclosed, if_neg (by simp [hrest]),
      List.reverse_reverse]

/-! ### Pieces -/

variable {text name : List Char} {ps pieces : List Piece}

/-- Whether a piece is a literal. -/
def Piece.isLiteral : Piece → Bool
  | .literal _ => true
  | .reference _ => false

/-- No literal follows a literal. -/
def Apart (p q : Piece) : Prop := p.isLiteral = true → q.isLiteral = false

theorem apart_reference {q : Piece} : Apart (.reference name) q := fun h => nomatch h

/-- What a piece may be: a literal is not empty and holds no opening, and what is referred to is a
    name. -/
def Piece.Readable : Piece → Prop
  | .literal text => text ≠ [] ∧ Inert text
  | .reference name => IsName name

/-- Pieces as a reader gives them. Literals are joined where they meet. -/
structure Proper (pieces : List Piece) : Prop where
  readable : ∀ p ∈ pieces, p.Readable
  apart : pieces.IsChain Apart

theorem proper_nil : Proper [] where
  readable := by simp
  apart := .nil

theorem proper_cons_iff {p : Piece} :
    Proper (p :: ps) ↔ p.Readable ∧ (∀ q ∈ ps.head?, Apart p q) ∧ Proper ps := by
  constructor
  · intro ⟨hreadable, hapart⟩
    obtain ⟨hp, hps⟩ := List.forall_mem_cons.mp hreadable
    obtain ⟨hhead, htail⟩ := List.isChain_cons.mp hapart
    exact ⟨hp, hhead, hps, htail⟩
  · intro ⟨hp, hhead, hps, htail⟩
    exact ⟨List.forall_mem_cons.mpr ⟨hp, hps⟩, List.isChain_cons.mpr ⟨hhead, htail⟩⟩

theorem write_growLiteral (c : Char) (ps : List Piece) :
    write (growLiteral c ps) = c :: write ps := by
  match ps with
  | [] => rfl
  | .literal text :: ps => rfl
  | .reference name :: ps => rfl

theorem opens_append {cs : List Char} (h : opens cs = true) (rest : List Char) :
    opens (cs ++ rest) = true := by
  obtain ⟨c, behind, rfl, hc⟩ := opens_iff.mp h
  exact hc

/-- A character that opens nothing may be put in front. -/
theorem Proper.growLiteral {c : Char} (h : Proper ps) (hnone : opens (c :: write ps) = false) :
    Proper (growLiteral c ps) := by
  -- what opens nothing with all that is written behind it opens nothing with less
  have hinert : ∀ text rest, write ps = text ++ rest → Inert text → Inert (c :: text) := by
    intro text rest hwrite htext
    rw [hwrite, Bool.eq_false_iff] at hnone
    refine inert_cons_iff.mpr ⟨?_, htext⟩
    rw [Bool.eq_false_iff]
    exact fun hopens => hnone (opens_append hopens rest)
  have hsingle := hinert [] (write ps) rfl inert_nil
  match ps with
  | [] => exact proper_cons_iff.mpr ⟨⟨by simp, hsingle⟩, by simp, h⟩
  | .reference name :: ps =>
    have hhead : ∀ q ∈ (Piece.reference name :: ps).head?, Apart (.literal [c]) q := by
      rintro _ ⟨⟩ -
      rfl
    exact proper_cons_iff.mpr ⟨⟨by simp, hsingle⟩, hhead, h⟩
  | .literal text :: ps =>
    obtain ⟨⟨-, htext⟩, hhead, hps⟩ := proper_cons_iff.mp h
    exact proper_cons_iff.mpr ⟨⟨by simp, hinert text (write ps) rfl htext⟩, hhead, hps⟩

theorem write_reference_cons (name : List Char) (ps : List Piece) :
    write (.reference name :: ps) = '#' :: '\x7b' :: (name ++ '\x7d' :: write ps) := by
  simp [Piece.write]

/-- What is read gives back the template. -/
theorem write_and_proper_of_readFrom {cs : List Char} {offset : Nat}
    (h : readFrom offset .text cs = .ok pieces) : write pieces = cs ∧ Proper pieces := by
  induction cs using text_induction generalizing offset pieces with
  | nil =>
    obtain rfl : [] = pieces := Except.ok.inj h
    exact ⟨rfl, proper_nil⟩
  | literal c cs hnone ih =>
    rw [readFrom_cons hnone] at h
    obtain ⟨ps, hrest, rfl⟩ := map_eq_ok_iff.mp h
    obtain ⟨hwrite, hproper⟩ := ih hrest
    exact ⟨by rw [write_growLiteral, hwrite], hproper.growLiteral (hwrite ▸ hnone)⟩
  | reference name cs hname ih =>
    rw [readFrom_reference hname] at h
    obtain ⟨ps, hrest, rfl⟩ := map_eq_ok_iff.mp h
    obtain ⟨hwrite, hproper⟩ := ih hrest
    refine ⟨?_, proper_cons_iff.mpr ⟨hname, fun _ _ => apart_reference, hproper⟩⟩
    rw [write_reference_cons, hwrite]
  | unclosed behind hopens hcloses =>
    rw [readFrom_unclosed hopens hcloses] at h
    cases h

theorem proper_of_read {cs : List Char} (h : read cs = .ok pieces) : Proper pieces :=
  (write_and_proper_of_readFrom h).2

/-- Text in which nothing opens is read into one literal, up to what seals it. -/
theorem readFrom_inert_append {rest : List Char} (htext : Inert text) (hrest : Seals rest)
    (offset : Nat) :
    readFrom offset .text (text ++ rest) =
      (readFrom (offset + byteLength text) .text rest).map fun ps => text.foldr growLiteral ps := by
  induction text generalizing offset with
  | nil => cases h : readFrom offset .text rest <;> simp [h, Except.map]
  | cons c text ih =>
    obtain ⟨hnone, htext⟩ := inert_cons_iff.mp htext
    have hstep := readFrom_cons (opens_append_of_seals hnone hrest) offset
    rw [List.cons_append, hstep, ih htext, byteLength_cons, ← Nat.add_assoc]
    cases readFrom (offset + c.utf8Size + byteLength text) .text rest <;> rfl

theorem foldr_growLiteral (hne : text ≠ []) (hhead : ∀ q ∈ ps.head?, Apart (.literal text) q) :
    text.foldr growLiteral ps = .literal text :: ps := by
  induction text with
  | nil => exact absurd rfl hne
  | cons c text ih =>
    cases text with
    | nil =>
      match ps with
      | [] => rfl
      | .literal other :: ps => exact nomatch hhead _ rfl rfl
      | .reference name :: ps => rfl
    | cons d text =>
      rw [List.foldr_cons, ih (by simp) hhead]
      rfl

/-- Behind a literal a hash is written next, if anything is. -/
theorem seals_write (hhead : ∀ q ∈ ps.head?, Apart (.literal text) q) : Seals (write ps) := by
  match ps with
  | [] => exact seals_nil
  | .literal other :: ps => exact nomatch hhead _ rfl rfl
  | .reference name :: ps => exact seals_cons (by decide) (by decide) _

/-- Proper pieces are read back. -/
theorem Proper.readFrom_write (h : Proper pieces) (offset : Nat) :
    readFrom offset .text (write pieces) = .ok pieces := by
  induction pieces generalizing offset with
  | nil => exact readFrom_nil offset
  | cons p ps ih =>
    cases p with
    | literal text =>
      obtain ⟨⟨hne, hinert⟩, hhead, hps⟩ := proper_cons_iff.mp h
      rw [write_cons, Piece.write, readFrom_inert_append hinert (seals_write hhead), ih hps]
      exact congrArg Except.ok (foldr_growLiteral hne hhead)
    | reference name =>
      obtain ⟨hname, -, hps⟩ := proper_cons_iff.mp h
      rw [write_reference_cons, readFrom_reference hname, ih hps]
      rfl

/-! ### Faults -/

variable {cs rest behind other : List Char} {offset position width : Nat} {fault : Fault}

/-- A reference opens at an offset of a text and is not closed. -/
def UnclosedAt (cs : List Char) (offset : Nat) (behind : List Char) : Prop :=
  OpensAt cs offset behind ∧ ¬Closes behind

/-- The first opening that is not closed. -/
structure FirstUnclosed (cs : List Char) (offset : Nat) (behind : List Char) : Prop where
  unclosed : UnclosedAt cs offset behind
  first : ∀ offset' behind', UnclosedAt cs offset' behind' → offset ≤ offset'

/-- Behind a character that opens nothing, the openings are those of the rest. -/
theorem unclosedAt_cons_iff {c : Char} (hnone : opens (c :: cs) = false) :
    UnclosedAt (c :: cs) offset behind ↔
      ∃ later, offset = c.utf8Size + later ∧ UnclosedAt cs later behind := by
  rw [UnclosedAt, opensAt_cons_iff, hnone]
  constructor
  · rintro ⟨⟨-, hopens, -⟩ | ⟨later, hoffset, hlater⟩, hcloses⟩
    · cases hopens
    · exact ⟨later, hoffset, hlater, hcloses⟩
  · rintro ⟨later, hoffset, hlater, hcloses⟩
    exact ⟨.inr ⟨later, hoffset, hlater⟩, hcloses⟩

/-- Behind a reference that is closed, the openings are those of the rest: there is none within the
    reference but its own. -/
theorem unclosedAt_reference_iff (hname : IsName name) :
    UnclosedAt ('#' :: '\x7b' :: (name ++ '\x7d' :: cs)) offset behind ↔
      ∃ later, offset = name.length + 3 + later ∧ UnclosedAt cs later behind := by
  have hclosed : Closes (name ++ '\x7d' :: cs) := closes_name_append hname.isNameChar cs
  have hhash : '#' ∉ '\x7b' :: (name ++ ['\x7d']) := by
    simpa using hash_notMem_of_isNameChar hname.isNameChar
  have hwidth : byteLength ('\x7b' :: (name ++ ['\x7d'])) = name.length + 2 := by
    have hbraces : '\x7b'.utf8Size = 1 ∧ '\x7d'.utf8Size = 1 := ⟨rfl, rfl⟩
    simp only [byteLength_cons, byteLength_append, byteLength_nil, hbraces,
      byteLength_of_isNameChar hname.isNameChar]
    omega
  have hinside : ∀ offset, OpensAt ('\x7b' :: (name ++ '\x7d' :: cs)) offset behind ↔
      ∃ later, offset = name.length + 2 + later ∧ OpensAt cs later behind := by
    intro offset
    have hsplit : '\x7b' :: (name ++ '\x7d' :: cs) = '\x7b' :: (name ++ ['\x7d']) ++ cs := by simp
    rw [hsplit, opensAt_append_iff hhash, hwidth]
  have hone : '#'.utf8Size = 1 := rfl
  rw [UnclosedAt, opensAt_cons_iff, hone]
  -- the opening of the reference itself is closed, and all others are those of the rest
  constructor
  · rintro ⟨⟨-, -, hcs⟩ | ⟨_, rfl, hopens⟩, hcloses⟩
    · obtain rfl : name ++ '\x7d' :: cs = behind := by simpa using hcs
      exact absurd hclosed hcloses
    · obtain ⟨later, rfl, hlater⟩ := (hinside _).mp hopens
      exact ⟨later, by omega, hlater, hcloses⟩
  · rintro ⟨later, rfl, hlater, hcloses⟩
    exact ⟨.inr ⟨_, by omega, (hinside _).mpr ⟨later, rfl, hlater⟩⟩, hcloses⟩

theorem FirstUnclosed.shift (h : FirstUnclosed rest position behind)
    (hshift : ∀ offset behind, UnclosedAt cs offset behind ↔
      ∃ later, offset = width + later ∧ UnclosedAt rest later behind) :
    FirstUnclosed cs (width + position) behind where
  unclosed := (hshift _ _).mpr ⟨position, rfl, h.unclosed⟩
  first offset' behind' hopens := by
    obtain ⟨later, rfl, hlater⟩ := (hshift _ _).mp hopens
    exact Nat.add_le_add_left (h.first later behind' hlater) width

/-- A template that fails has a first opening that is not closed, and this is its fault. -/
theorem exists_firstUnclosed_of_readFrom (h : readFrom offset .text cs = .error fault) :
    ∃ position behind, FirstUnclosed cs position behind ∧
      fault = unclosed (offset + position) behind := by
  -- what a step takes shifts the first such opening of the rest
  induction cs using text_induction generalizing offset with
  | nil =>
    rw [readFrom_nil] at h
    cases h
  | literal c cs hnone ih =>
    rw [readFrom_cons hnone] at h
    obtain ⟨position, behind, hfirst, rfl⟩ := ih (map_eq_error_iff.mp h)
    refine ⟨_, behind, hfirst.shift fun _ _ => unclosedAt_cons_iff hnone, ?_⟩
    rw [Nat.add_assoc]
  | reference name cs hname ih =>
    rw [readFrom_reference hname] at h
    obtain ⟨position, behind, hfirst, rfl⟩ := ih (map_eq_error_iff.mp h)
    refine ⟨_, behind, hfirst.shift fun _ _ => unclosedAt_reference_iff hname, ?_⟩
    rw [Nat.add_assoc]
  | unclosed behind hopens hcloses =>
    rw [readFrom_unclosed hopens hcloses] at h
    obtain rfl := Except.error.inj h
    have hfirst : UnclosedAt ('#' :: '\x7b' :: behind) 0 behind :=
      ⟨opensAt_cons_iff.mpr (.inl ⟨rfl, hopens, rfl⟩), hcloses⟩
    exact ⟨0, behind, ⟨hfirst, fun _ _ _ => Nat.zero_le _⟩, rfl⟩

/-- A template that is read closes every reference that it opens. -/
theorem not_unclosedAt_of_readFrom (h : readFrom offset .text cs = .ok pieces) :
    ¬UnclosedAt cs position behind := by
  induction cs using text_induction generalizing offset position pieces with
  | nil => exact fun hopens => not_opensAt_nil hopens.1
  | literal c cs hnone ih =>
    rw [readFrom_cons hnone] at h
    obtain ⟨ps, hrest, -⟩ := map_eq_ok_iff.mp h
    intro hopens
    obtain ⟨later, -, hlater⟩ := (unclosedAt_cons_iff hnone).mp hopens
    exact ih hrest hlater
  | reference name cs hname ih =>
    rw [readFrom_reference hname] at h
    obtain ⟨ps, hrest, -⟩ := map_eq_ok_iff.mp h
    intro hopens
    obtain ⟨later, -, hlater⟩ := (unclosedAt_reference_iff hname).mp hopens
    exact ih hrest hlater
  | unclosed behind hopens hcloses =>
    rw [readFrom_unclosed hopens hcloses] at h
    cases h

/-- The brace is missing, in the words of the fault, if the name reaches the end. -/
theorem message_unclosed_iff :
    (unclosed offset behind).problem.message =
        "missing closing \x27\x7d\x27 for macro reference" ↔
      behind.takeWhile isNameChar = behind := by
  have hsplit := List.takeWhile_append_dropWhile (p := isNameChar) (l := behind)
  rw [unclosed]
  split
  · next hend =>
    rw [hend, List.append_nil] at hsplit
    exact iff_of_true rfl hsplit
  · next hend =>
    have hmessage : Problem.invalidReference.message ≠ Problem.missingBrace.message := by decide
    refine iff_of_false hmessage fun hall => hend ?_
    rw [hall] at hsplit
    simpa using hsplit

/-- **Reading is exact.** A template fails if some reference in it is opened and its name is not
    followed by a brace. The fault is then about the first such opening: it tells its offset and the
    name so far, and says that the brace is missing if the name reaches the end. Any other template
    is read, and the pieces of a template are the only proper ones that give it back when they are
    written. -/
theorem read_exact (cs : List Char) :
    ((∃ fault, read cs = .error fault) ↔ ∃ offset behind, UnclosedAt cs offset behind) ∧
    (∀ fault, read cs = .error fault →
      ∃ behind, FirstUnclosed cs fault.position behind ∧
        fault.name = some (String.ofList (behind.takeWhile isNameChar)) ∧
        (fault.problem.message = "missing closing \x27\x7d\x27 for macro reference" ↔
          behind.takeWhile isNameChar = behind)) ∧
    ∀ pieces, read cs = .ok pieces ↔ write pieces = cs ∧ Proper pieces := by
  refine ⟨⟨?_, ?_⟩, ?_, fun pieces => ⟨write_and_proper_of_readFrom, ?_⟩⟩
  · intro ⟨fault, h⟩
    obtain ⟨position, behind, hfirst, -⟩ := exists_firstUnclosed_of_readFrom h
    exact ⟨position, behind, hfirst.unclosed⟩
  · intro ⟨offset, behind, hopens⟩
    cases h : read cs with
    | error fault => exact ⟨fault, rfl⟩
    | ok pieces => exact absurd hopens (not_unclosedAt_of_readFrom h)
  · intro fault h
    obtain ⟨position, behind, hfirst, rfl⟩ := exists_firstUnclosed_of_readFrom h
    rw [Nat.zero_add]
    exact ⟨behind, hfirst, rfl, message_unclosed_iff⟩
  · rintro ⟨rfl, hproper⟩
    exact hproper.readFrom_write 0

/-- An offset counts bytes: the reference stands behind one letter that is two bytes wide. -/
example : read "é#\x7bab-\x7d".toList = .error ⟨.invalidReference, 2, some "ab"⟩ := by
  decide +kernel

end TreeQuery.Template
