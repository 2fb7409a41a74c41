import Mathlib.Data.List.Basic
import TreeQuery.Pattern.Reading
import TreeQuery.Text.Offset

/-! # Readers — the ordered readings of a plan

    A front follows many attempts at once and drops those that come second to a
    place. A *reader* says the same in the plain way: it lists all readings from
    a place of the text, the preferred one first, one attempt after another.

    * **Combinators**: sequence, ordered choice, groups and loops of readers. A
      loop goes round as often as there are characters left, which is enough
      when its body always reads something.
    * **Readings of a plan**: one combinator per constructor, and the readings of
      the tasks that an attempt has still to do.
    * **Steady readers**: a reading ends further on in the same text.
    * **Marks do not matter**: which readings there are depends on the place in
      the text alone, not on what the groups have read before.
-/

namespace TreeQuery.Pattern

/-- A place of a text together with what the named groups have read so far. -/
structure Cursor where
  offset : Nat
  rest : List Char
  /-- What the named groups have read, the latest first. -/
  marks : List Mark
deriving DecidableEq, Repr

namespace Cursor

/-- The place of a cursor as a spot of the text. -/
def spot (c : Cursor) : Spot := ⟨c.offset, c.rest.isEmpty⟩

/-- A cursor at the end of a plan. -/
def reading (c : Cursor) : Reading := ⟨c.offset, c.marks⟩

/-- Remembers what a group has read. -/
def mark (c : Cursor) (name : String) (began : Nat) : Cursor :=
  { c with marks := ⟨name, began, c.offset⟩ :: c.marks }

/-- The place of a cursor without its marks. -/
def bare (c : Cursor) : Cursor := { c with marks := [] }

/-- Reading a piece of the text leads from one cursor to another. -/
structure Reaches (c : Cursor) (read : List Char) (c' : Cursor) : Prop where
  rest : c.rest = read ++ c'.rest
  offset : c'.offset = c.offset + Text.byteLength read

theorem Reaches.refl (c : Cursor) : c.Reaches [] c := ⟨rfl, rfl⟩

theorem Reaches.trans {c m c' : Cursor} {read more : List Char} (h : c.Reaches read m)
    (h' : m.Reaches more c') : c.Reaches (read ++ more) c' where
  rest := by rw [h.rest, h'.rest, List.append_assoc]
  offset := by rw [h'.offset, h.offset, Text.byteLength_append, Nat.add_assoc]

theorem Reaches.length_le {c c' : Cursor} {read : List Char} (h : c.Reaches read c') :
    c'.rest.length ≤ c.rest.length := by
  rw [h.rest, List.length_append]
  exact Nat.le_add_left ..

@[simp] theorem bare_mk (offset : Nat) (rest : List Char) (marks : List Mark) :
    bare ⟨offset, rest, marks⟩ = ⟨offset, rest, []⟩ := rfl

@[simp] theorem bare_mark (c : Cursor) (name : String) (began : Nat) :
    (c.mark name began).bare = c.bare := rfl

end Cursor

/-- The readings from a cursor on, the preferred one first. -/
abbrev Reader : Type := Cursor → List Cursor

namespace Reader

/-! ### Combinators -/

/-- Reads nothing. -/
def skip : Reader := fun c => [c]

/-- Reads one character of a set. -/
def one (set : CharSet) : Reader := fun c =>
  match c.rest with
  | [] => []
  | x :: xs => if set.contains x then [⟨c.offset + x.utf8Size, xs, c.marks⟩] else []

/-- Reads nothing, at the start of the text only. -/
def start : Reader := fun c => if c.offset = 0 then [c] else []

/-- Reads nothing, at the end of the text only. -/
def finish : Reader := fun c => if c.rest.isEmpty then [c] else []

/-- One reader after another. -/
def seq (r s : Reader) : Reader := fun c => (r c).flatMap s

/-- One reader or else another. -/
def alt (r s : Reader) : Reader := fun c => r c ++ s c

/-- Remembers what a reader reads. -/
def group (name : String) (r : Reader) : Reader := fun c =>
  (r c).map (·.mark name c.offset)

/-- One reader or else another, the former preferred if greedy. -/
def prefer (greedy : Bool) (r s : Reader) : Reader := if greedy then alt r s else alt s r

/-- A reader any number of times, but at most as often as given. -/
def roundsWithin (greedy : Bool) (r : Reader) : Nat → Reader
  | 0 => skip
  | k + 1 => prefer greedy (seq r (roundsWithin greedy r k)) skip

/-- A reader any number of times. -/
def rounds (greedy : Bool) (r : Reader) : Reader := fun c =>
  roundsWithin greedy r c.rest.length c

/-! ### Laws -/

theorem seq_skip (r : Reader) : seq r skip = r := by
  funext c
  unfold seq skip
  rw [List.flatMap_singleton']

theorem skip_seq (r : Reader) : seq skip r = r := by
  funext c
  unfold seq skip
  rw [List.flatMap_singleton]

theorem seq_assoc (r s t : Reader) : seq (seq r s) t = seq r (seq s t) := by
  funext c
  unfold seq
  exact List.flatMap_assoc

theorem alt_seq (r s t : Reader) : seq (alt r s) t = alt (seq r t) (seq s t) := by
  funext c
  unfold seq alt
  rw [List.flatMap_append]

/-- A reader that goes through the text from its cursor on. -/
def Steady (r : Reader) : Prop :=
  ∀ c, ∀ c' ∈ r c, ∃ read, c.Reaches read c'

/-- A reader that always reads something. -/
def Advancing (r : Reader) : Prop :=
  ∀ c, ∀ c' ∈ r c, c'.rest.length < c.rest.length

/-- At the end of a text an advancing reader reads nothing. -/
theorem Advancing.eq_nil {r : Reader} (h : Advancing r) {c : Cursor} (hc : c.rest.length ≤ 0) :
    r c = [] := by
  rw [List.eq_nil_iff_forall_not_mem]
  intro c' hc'
  have hlt := h c c' hc'
  omega

/-- Where there is nothing to read, no round is made. -/
theorem roundsWithin_of_eq_nil {r : Reader} {c : Cursor} (h : r c = []) (greedy : Bool) (k : Nat) :
    roundsWithin greedy r k c = [c] := by
  cases k with
  | zero => rfl
  | succ k => cases greedy <;> simp [roundsWithin, prefer, alt, seq, h, skip]

/-- More rounds than there are characters left make no difference to an advancing reader. -/
theorem roundsWithin_eq_rounds {greedy : Bool} {r : Reader} (h : Advancing r) {k : Nat}
    {c : Cursor} (hk : c.rest.length ≤ k) : roundsWithin greedy r k c = rounds greedy r c := by
  unfold rounds
  -- both bounds are enough, so by induction on one of them both loops make the same rounds
  suffices hboth : ∀ (j k : Nat) (c : Cursor), c.rest.length ≤ j → c.rest.length ≤ k →
      roundsWithin greedy r k c = roundsWithin greedy r j c from
    hboth c.rest.length k c (Nat.le_refl _) hk
  intro j
  induction j with
  | zero =>
    intro k c hj _
    rw [roundsWithin_of_eq_nil (h.eq_nil hj), roundsWithin_of_eq_nil (h.eq_nil hj)]
  | succ j ih =>
    intro k c hj hk
    cases k with
    | zero => rw [roundsWithin_of_eq_nil (h.eq_nil hk), roundsWithin_of_eq_nil (h.eq_nil hk)]
    | succ k =>
      have hround : seq r (roundsWithin greedy r k) c = seq r (roundsWithin greedy r j) c := by
        unfold seq
        refine List.flatMap_congr fun c' hc' => ?_
        have hlt := h c c' hc'
        exact ih k c' (by omega) (by omega)
      cases greedy <;> simp [roundsWithin, prefer, alt, hround]

/-- A loop is one more round, or nothing. -/
theorem rounds_eq (greedy : Bool) {r : Reader} (h : Advancing r) :
    rounds greedy r = prefer greedy (seq r (rounds greedy r)) skip := by
  funext c
  rw [← roundsWithin_eq_rounds h (Nat.le_succ c.rest.length)]
  have hround : seq r (roundsWithin greedy r c.rest.length) c = seq r (rounds greedy r) c := by
    unfold seq
    refine List.flatMap_congr fun c' hc' => ?_
    exact roundsWithin_eq_rounds h (Nat.le_of_lt (h c c' hc'))
  cases greedy <;> simp [roundsWithin, prefer, alt, hround]

/-! ### Direction -/

theorem steady_skip : Steady skip := by
  intro c c' hc'
  rw [List.mem_singleton.mp hc']
  exact ⟨[], .refl c⟩

/-- Reading one character. -/
theorem mem_one_iff {set : CharSet} {c c' : Cursor} :
    c' ∈ one set c ↔
      ∃ x xs, c.rest = x :: xs ∧ set.contains x = true ∧
        c' = ⟨c.offset + x.utf8Size, xs, c.marks⟩ := by
  unfold one
  cases hrest : c.rest with
  | nil => simp
  | cons x xs => by_cases hx : set.contains x = true <;> simp [hx]

theorem steady_one (set : CharSet) : Steady (one set) := by
  intro c c' hc'
  obtain ⟨x, xs, hrest, _, rfl⟩ := mem_one_iff.mp hc'
  exact ⟨[x], hrest, rfl⟩

theorem advancing_one (set : CharSet) : Advancing (one set) := by
  intro c c' hc'
  obtain ⟨x, xs, hrest, _, rfl⟩ := mem_one_iff.mp hc'
  rw [hrest]
  exact Nat.lt_succ_self xs.length

theorem steady_start : Steady start := by
  intro c c' hc'
  unfold start at hc'
  split at hc'
  · exact steady_skip c c' hc'
  · cases hc'

theorem steady_finish : Steady finish := by
  intro c c' hc'
  unfold finish at hc'
  split at hc'
  · exact steady_skip c c' hc'
  · cases hc'

theorem Steady.seq {r s : Reader} (hr : Steady r) (hs : Steady s) : Steady (seq r s) := by
  intro c c' hc'
  obtain ⟨m, hm, hc'⟩ := List.mem_flatMap.mp hc'
  obtain ⟨read, hread⟩ := hr c m hm
  obtain ⟨more, hmore⟩ := hs m c' hc'
  exact ⟨read ++ more, hread.trans hmore⟩

theorem Advancing.seq_left {r s : Reader} (hr : Advancing r) (hs : Steady s) :
    Advancing (Reader.seq r s) := by
  intro c c' hc'
  obtain ⟨m, hm, hc'⟩ := List.mem_flatMap.mp hc'
  obtain ⟨_, hmore⟩ := hs m c' hc'
  exact Nat.lt_of_le_of_lt hmore.length_le (hr c m hm)

theorem Advancing.seq_right {r s : Reader} (hr : Steady r) (hs : Advancing s) :
    Advancing (Reader.seq r s) := by
  intro c c' hc'
  obtain ⟨m, hm, hc'⟩ := List.mem_flatMap.mp hc'
  obtain ⟨_, hread⟩ := hr c m hm
  exact Nat.lt_of_lt_of_le (hs m c' hc') hread.length_le

theorem Steady.alt {r s : Reader} (hr : Steady r) (hs : Steady s) : Steady (alt r s) := by
  intro c c' hc'
  rcases List.mem_append.mp hc' with hc' | hc'
  · exact hr c c' hc'
  · exact hs c c' hc'

theorem Advancing.alt {r s : Reader} (hr : Advancing r) (hs : Advancing s) :
    Advancing (alt r s) := by
  intro c c' hc'
  rcases List.mem_append.mp hc' with hc' | hc'
  · exact hr c c' hc'
  · exact hs c c' hc'

theorem Steady.group {r : Reader} (hr : Steady r) (name : String) : Steady (group name r) := by
  intro c c' hc'
  obtain ⟨m, hm, rfl⟩ := List.mem_map.mp hc'
  obtain ⟨read, hread⟩ := hr c m hm
  exact ⟨read, hread.rest, hread.offset⟩

theorem Advancing.group {r : Reader} (hr : Advancing r) (name : String) :
    Advancing (group name r) := by
  intro c c' hc'
  obtain ⟨m, hm, rfl⟩ := List.mem_map.mp hc'
  exact hr c m hm

theorem Steady.prefer {r s : Reader} (hr : Steady r) (hs : Steady s) (greedy : Bool) :
    Steady (prefer greedy r s) := by
  unfold Reader.prefer
  cases greedy
  · exact hs.alt hr
  · exact hr.alt hs

theorem Steady.rounds {r : Reader} (hr : Steady r) (greedy : Bool) :
    Steady (rounds greedy r) := by
  suffices hwithin : ∀ k, Steady (roundsWithin greedy r k) from
    fun c => hwithin c.rest.length c
  intro k
  induction k with
  | zero => exact steady_skip
  | succ k ih => exact (hr.seq ih).prefer steady_skip greedy

/-! ### Marks do not matter -/

/-- Two readers agree up to marks, whatever marks they start with. -/
def Alike (r s : Reader) : Prop :=
  ∀ c c' : Cursor, c.bare = c'.bare → (r c).map Cursor.bare = (s c').map Cursor.bare

theorem Alike.eq_nil_iff {r s : Reader} (h : Alike r s) {c c' : Cursor}
    (hc : c.bare = c'.bare) : r c = [] ↔ s c' = [] := by
  have hmap := h c c' hc
  constructor
  · intro hr
    rw [hr, List.map_nil] at hmap
    exact List.map_eq_nil_iff.mp hmap.symm
  · intro hs
    rw [hs, List.map_nil] at hmap
    exact List.map_eq_nil_iff.mp hmap

theorem offset_eq_of_bare {c c' : Cursor} (h : c.bare = c'.bare) : c.offset = c'.offset := by
  have hoffset := congrArg Cursor.offset h
  exact hoffset

theorem rest_eq_of_bare {c c' : Cursor} (h : c.bare = c'.bare) : c.rest = c'.rest := by
  have hrest := congrArg Cursor.rest h
  exact hrest

theorem alike_skip : Alike skip skip := by
  intro c c' h
  unfold skip
  rw [List.map_singleton, List.map_singleton, h]

theorem alike_one (set : CharSet) : Alike (one set) (one set) := by
  intro c c' h
  unfold one
  rw [rest_eq_of_bare h, offset_eq_of_bare h]
  cases c'.rest with
  | nil => rfl
  | cons x xs => by_cases hx : set.contains x <;> simp [hx]

theorem alike_start : Alike start start := by
  intro c c' h
  unfold start
  rw [offset_eq_of_bare h]
  by_cases h0 : c'.offset = 0 <;> simp [h0, h]

theorem alike_finish : Alike finish finish := by
  intro c c' h
  unfold finish
  rw [rest_eq_of_bare h]
  by_cases hnil : c'.rest.isEmpty <;> simp [hnil, h]

theorem Alike.seq {r r' s s' : Reader} (hr : Alike r r') (hs : Alike s s') :
    Alike (seq r s) (seq r' s') := by
  intro c c' h
  -- what the first reader leaves differs in marks only, one cursor at a time
  have key : ∀ l l' : List Cursor, l.map Cursor.bare = l'.map Cursor.bare →
      (l.flatMap s).map Cursor.bare = (l'.flatMap s').map Cursor.bare := by
    intro l
    induction l with
    | nil =>
      intro l' hl
      rw [List.map_eq_nil_iff.mp hl.symm]
      rfl
    | cons m l ih =>
      intro l' hl
      cases l' with
      | nil => cases hl
      | cons m' l' =>
        rw [List.map_cons, List.map_cons, List.cons.injEq] at hl
        rw [List.flatMap_cons, List.flatMap_cons, List.map_append, List.map_append,
          hs m m' hl.1, ih l' hl.2]
  exact key _ _ (hr c c' h)

theorem Alike.alt {r r' s s' : Reader} (hr : Alike r r') (hs : Alike s s') :
    Alike (alt r s) (alt r' s') := by
  intro c c' h
  unfold Reader.alt
  rw [List.map_append, List.map_append, hr c c' h, hs c c' h]

theorem Alike.group {r r' : Reader} (hr : Alike r r') (name : String) :
    Alike (group name r) (group name r') := by
  intro c c' h
  unfold Reader.group
  rw [List.map_map, List.map_map]
  exact hr c c' h

theorem Alike.prefer {r r' s s' : Reader} (hr : Alike r r') (hs : Alike s s') (greedy : Bool) :
    Alike (prefer greedy r s) (prefer greedy r' s') := by
  unfold Reader.prefer
  cases greedy
  · exact hs.alt hr
  · exact hr.alt hs

theorem Alike.rounds {r r' : Reader} (hr : Alike r r') (greedy : Bool) :
    Alike (rounds greedy r) (rounds greedy r') := by
  have hwithin : ∀ k, Alike (roundsWithin greedy r k) (roundsWithin greedy r' k) := by
    intro k
    induction k with
    | zero => exact alike_skip
    | succ k ih => exact (hr.seq ih).prefer alike_skip greedy
  intro c c' h
  unfold Reader.rounds
  rw [rest_eq_of_bare h]
  exact hwithin _ c c' h

end Reader

/-! ### Plans and tasks -/

namespace Plan

/-- The readings of a plan. -/
def readings : Plan → Reader
  | .empty => .skip
  | .one _ set => .one set
  | .start => .start
  | .finish => .finish
  | .seq first second => .seq first.readings second.readings
  | .alt _ preferred other => .alt preferred.readings other.readings
  | .group name body => .group name body.readings
  | .loop _ greedy entered body =>
    if entered then .seq body.readings (.rounds greedy body.readings)
    else .rounds greedy body.readings

/-- Whether a plan may come to its end without reading a character. -/
def nullable : Plan → Bool
  | .empty | .start | .finish => true
  | .one _ _ => false
  | .seq first second => first.nullable && second.nullable
  | .alt _ preferred other => preferred.nullable || other.nullable
  | .group _ body => body.nullable
  | .loop _ _ entered body => !entered || body.nullable

theorem steady_readings (p : Plan) : Reader.Steady p.readings := by
  induction p with
  | empty => exact Reader.steady_skip
  | one place set => exact Reader.steady_one set
  | start => exact Reader.steady_start
  | finish => exact Reader.steady_finish
  | seq first second ihf ihs => exact ihf.seq ihs
  | alt place preferred other ihp iho => exact ihp.alt iho
  | group name body ih => exact ih.group name
  | loop place greedy entered body ih =>
    unfold readings
    split
    · exact ih.seq (ih.rounds greedy)
    · exact ih.rounds greedy

theorem advancing_readings {p : Plan} (hp : p.nullable = false) :
    Reader.Advancing p.readings := by
  induction p with
  | empty => cases hp
  | one place set => exact Reader.advancing_one set
  | start => cases hp
  | finish => cases hp
  | seq first second ihf ihs =>
    rcases Bool.and_eq_false_iff.mp hp with hf | hs
    · exact (ihf hf).seq_left second.steady_readings
    · exact .seq_right first.steady_readings (ihs hs)
  | alt place preferred other ihp iho =>
    obtain ⟨hpreferred, hother⟩ := Bool.or_eq_false_iff.mp hp
    exact (ihp hpreferred).alt (iho hother)
  | group name body ih => exact (ih hp).group name
  | loop place greedy entered body ih =>
    -- a loop may read nothing unless it has been entered, and then its first round reads something
    obtain ⟨hentered, hbody⟩ := Bool.or_eq_false_iff.mp hp
    unfold readings
    rw [if_pos (by simpa using hentered)]
    exact (ih hbody).seq_left (body.steady_readings.rounds greedy)

theorem alike_readings (p : Plan) : Reader.Alike p.readings p.readings := by
  induction p with
  | empty => exact Reader.alike_skip
  | one place set => exact Reader.alike_one set
  | start => exact Reader.alike_start
  | finish => exact Reader.alike_finish
  | seq first second ihf ihs => exact ihf.seq ihs
  | alt place preferred other ihp iho => exact ihp.alt iho
  | group name body ih => exact ih.group name
  | loop place greedy entered body ih =>
    unfold readings
    split
    · exact ih.seq (ih.rounds greedy)
    · exact ih.rounds greedy

end Plan

namespace Task

/-- The readings of a task. -/
def readings : Task → Reader
  | .read plan => plan.readings
  | .close name began => fun c => [c.mark name began]

/-- The readings of the tasks of an attempt, one after another. -/
def readingsOf : List Task → Reader
  | [] => .skip
  | task :: tasks => .seq task.readings (readingsOf tasks)

/-- A task without the place where its group began. -/
def shape : Task → Task
  | .read plan => .read plan
  | .close name _ => .close name 0

theorem alike_shape (task : Task) : Reader.Alike task.readings task.shape.readings := by
  cases task with
  | read plan => exact plan.alike_readings
  | close name began =>
    intro c c' h
    unfold readings shape
    simpa using h

/-- Where the groups began does not matter to whether the tasks can be done. -/
theorem alike_readingsOf_shape (tasks : List Task) :
    Reader.Alike (readingsOf tasks) (readingsOf (tasks.map shape)) := by
  induction tasks with
  | nil => exact Reader.alike_skip
  | cons task tasks ih => exact task.alike_shape.seq ih

end Task

end TreeQuery.Pattern
