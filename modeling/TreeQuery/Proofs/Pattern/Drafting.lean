import TreeQuery.Proofs.Pattern.Numbering

/-! # Drafts — a plan reads what its pattern says

    A pattern has readings of its own, told by one combinator per constructor. Its
    draft writes repetitions out and numbers the places, and changes nothing about
    the readings:

    * **Realized readers**: what a draft is good for, whatever number it starts at.
    * **Productive patterns**: the body of every repetition without an upper bound
      always reads something.
    * **Preferred reading**: the plan of a productive pattern comes to the first of
      the readings of the pattern.
-/

namespace TreeQuery.Pattern

/-! ### Readings of a pattern -/

namespace Reader

/-- A reader as many times as given. -/
def exactly (r : Reader) : Nat → Reader
  | 0 => skip
  | n + 1 => seq r (exactly r n)

/-- A reader as many times as a repetition allows. -/
def repeated (times : Times) (r : Reader) : Reader :=
  match times.most with
  | none => seq (exactly r times.least) (rounds times.greedy r)
  | some most => seq (exactly r times.least) (roundsWithin times.greedy r (most - times.least))

theorem exactly_one (r : Reader) : exactly r 1 = r := seq_skip r

theorem exactly_add (r : Reader) (m n : Nat) :
    exactly r (m + n) = seq (exactly r m) (exactly r n) := by
  induction m with
  | zero => rw [Nat.zero_add, exactly, skip_seq]
  | succ m ih => rw [Nat.succ_add, exactly, ih, exactly, seq_assoc]

end Reader

/-- The readings of a pattern. -/
def readings : Pattern → Reader
  | .empty => .skip
  | .one set => .one set
  | .start => .start
  | .finish => .finish
  | .seq first second => .seq first.readings second.readings
  | .alt preferred other => .alt preferred.readings other.readings
  | .group none body => body.readings
  | .group (some name) body => .group name body.readings
  | .repeated times body => .repeated times body.readings

/-- Every round of every repetition without an upper bound reads something. -/
def Productive : Pattern → Prop
  | .empty | .one _ | .start | .finish => True
  | .seq first second => first.Productive ∧ second.Productive
  | .alt preferred other => preferred.Productive ∧ other.Productive
  | .group _ body => body.Productive
  | .repeated times body => (times.most = none → body.canBeEmpty = false) ∧ body.Productive

instance decidableProductive : (p : Pattern) → Decidable p.Productive
  | .empty | .one _ | .start | .finish => inferInstanceAs (Decidable True)
  | .seq first second =>
    have := decidableProductive first
    have := decidableProductive second
    inferInstanceAs (Decidable (first.Productive ∧ second.Productive))
  | .alt preferred other =>
    have := decidableProductive preferred
    have := decidableProductive other
    inferInstanceAs (Decidable (preferred.Productive ∧ other.Productive))
  | .group _ body => decidableProductive body
  | .repeated times body =>
    have := decidableProductive body
    inferInstanceAs
      (Decidable ((times.most = none → body.canBeEmpty = false) ∧ body.Productive))

/-! ### Realized readers -/

/-- The plans of a draft read what a reader reads, whatever number they start at. They use the
    numbers that the draft hands out, each of them once. -/
structure Draft.Realizes (d : Draft) (r : Reader) (nullable : Bool) : Prop where
  numbered : d.Numbered
  readings : ∀ n, (d n).1.readings = r
  nullable : ∀ n, (d n).1.nullable = nullable
  productive : ∀ n, (d n).1.Productive

namespace Draft.Realizes

variable {d e : Draft} {r s : Reader} {b c : Bool}

theorem empty : Draft.Realizes .empty .skip true where
  numbered _ := ⟨0, rfl, rfl⟩
  readings _ := rfl
  nullable _ := rfl
  productive _ := trivial

theorem start : Draft.Realizes (fun n => (.start, n)) .start true where
  numbered _ := ⟨0, rfl, rfl⟩
  readings _ := rfl
  nullable _ := rfl
  productive _ := trivial

theorem finish : Draft.Realizes (fun n => (.finish, n)) .finish true where
  numbered _ := ⟨0, rfl, rfl⟩
  readings _ := rfl
  nullable _ := rfl
  productive _ := trivial

theorem one (set : CharSet) : Draft.Realizes (.one set) (.one set) false where
  numbered _ := ⟨1, rfl, rfl⟩
  readings _ := rfl
  nullable _ := rfl
  productive _ := trivial

theorem seq (hd : d.Realizes r b) (he : e.Realizes s c) :
    (Draft.seq d e).Realizes (.seq r s) (b && c) where
  numbered := Draft.compositional_numbered.seq hd.numbered he.numbered
  readings n := congrArg₂ Reader.seq (hd.readings n) (he.readings _)
  nullable n := congrArg₂ and (hd.nullable n) (he.nullable _)
  productive n := ⟨hd.productive n, he.productive _⟩

theorem alt (hd : d.Realizes r b) (he : e.Realizes s c) :
    (Draft.alt d e).Realizes (.alt r s) (b || c) where
  numbered := Draft.compositional_numbered.alt hd.numbered he.numbered
  readings n := congrArg₂ Reader.alt (hd.readings (n + 1)) (he.readings _)
  nullable n := congrArg₂ or (hd.nullable (n + 1)) (he.nullable _)
  productive n := ⟨hd.productive (n + 1), he.productive _⟩

theorem group (name : String) (hd : d.Realizes r b) :
    (Draft.group name d).Realizes (.group name r) b where
  numbered n := hd.numbered n
  readings n := congrArg (Reader.group name) (hd.readings n)
  nullable n := hd.nullable n
  productive n := hd.productive n

theorem loop (greedy : Bool) (hd : d.Realizes r false) :
    (Draft.loop greedy false d).Realizes (.rounds greedy r) true where
  numbered := Draft.compositional_numbered.loop _ _ hd.numbered
  readings n := congrArg (Reader.rounds greedy) (hd.readings (n + 1))
  nullable _ := rfl
  productive n := ⟨hd.nullable (n + 1), hd.productive (n + 1)⟩

theorem loop_entered (greedy : Bool) (hd : d.Realizes r false) :
    (Draft.loop greedy true d).Realizes (.seq r (.rounds greedy r)) false where
  numbered := Draft.compositional_numbered.loop _ _ hd.numbered
  readings n := congrArg (fun r => Reader.seq r (.rounds greedy r)) (hd.readings (n + 1))
  nullable n := hd.nullable (n + 1)
  productive n := ⟨hd.nullable (n + 1), hd.productive (n + 1)⟩

theorem optional (greedy : Bool) (hd : d.Realizes r b) :
    (Draft.optional greedy d).Realizes (.prefer greedy r .skip) true := by
  unfold Draft.optional Reader.prefer
  cases greedy
  · exact empty.alt hd
  · simpa using hd.alt empty

theorem exactly (hd : d.Realizes r b) (n : Nat) :
    (Draft.exactly d n).Realizes (.exactly r n) (n == 0 || b) := by
  induction n with
  | zero => exact empty
  | succ n ih =>
    cases n with
    | zero =>
      rw [Reader.exactly_one]
      exact hd
    | succ n => simpa [Draft.exactly, Reader.exactly] using hd.seq ih

theorem atMost (greedy : Bool) (hd : d.Realizes r b) (n : Nat) :
    (Draft.atMost greedy d n).Realizes (.roundsWithin greedy r n) true := by
  induction n with
  | zero => exact empty
  | succ n ih =>
    cases n with
    | zero =>
      simp only [Reader.roundsWithin, Reader.seq_skip]
      exact hd.optional greedy
    | succ n => exact (hd.seq ih).optional greedy

theorem repeated {times : Times} (hd : d.Realizes r b) (htimes : times.most = none → b = false) :
    (Draft.repeated times b d).Realizes (.repeated times r) (times.least == 0 || b) := by
  obtain ⟨least, most, greedy⟩ := times
  unfold Draft.repeated Reader.repeated
  cases most with
  | none =>
    obtain rfl : b = false := htimes rfl
    rcases least with _ | _ | n
    · simpa [Draft.anyTimes, Reader.exactly, Reader.skip_seq] using hd.loop greedy
    · simpa [Reader.exactly, Reader.seq_skip] using hd.loop_entered greedy
    · -- the last of the rounds that must be there is the one in which the loop is entered
      have heq : Reader.seq (.exactly r (n + 2)) (.rounds greedy r) =
          .seq (.exactly r (n + 1)) (.seq r (.rounds greedy r)) := by
        rw [Reader.exactly_add r (n + 1) 1, Reader.exactly_one, Reader.seq_assoc]
      simpa [heq] using (hd.exactly (n + 1)).seq (hd.loop_entered greedy)
  | some most =>
    cases least with
    | zero => simpa [Reader.exactly, Reader.skip_seq] using hd.atMost greedy most
    | succ n =>
      by_cases h : most ≤ n + 1
      · have hnone : most - (n + 1) = 0 := by omega
        simpa [h, hnone, Reader.roundsWithin, Reader.seq_skip] using hd.exactly (n + 1)
      · simpa [h] using (hd.exactly (n + 1)).seq (hd.atMost greedy (most - (n + 1)))

/-- A plan comes to the first reading of the reader that its draft realizes. -/
theorem best?_eq (hd : d.Realizes r b) (n offset : Nat) (rest : List Char) :
    (d n).1.best? offset rest = (r ⟨offset, rest, []⟩).head?.map Cursor.reading := by
  rw [Plan.best?_eq_of_nodup (hd.numbered.nodup_places n) (hd.productive n),
    hd.readings]

end Draft.Realizes

/-- The draft of a productive pattern realizes the readings of the pattern. -/
theorem realizes_draft {p : Pattern} (h : p.Productive) :
    p.draft.Realizes p.readings p.canBeEmpty := by
  induction p with
  | empty => exact .empty
  | one set => exact .one set
  | start => exact .start
  | finish => exact .finish
  | seq first second ihf ihs => exact (ihf h.1).seq (ihs h.2)
  | alt preferred other ihp iho => exact (ihp h.1).alt (iho h.2)
  | group name body ih =>
    cases name with
    | none => exact ih h
    | some name => exact (ih h).group name
  | repeated times body ih => exact (ih h.2).repeated h.1

theorem steady_readings {p : Pattern} (h : p.Productive) : Reader.Steady p.readings := by
  rw [← (realizes_draft h).readings 0]
  exact Plan.steady_readings _

theorem advancing_readings {p : Pattern} (h : p.Productive) (hp : p.canBeEmpty = false) :
    Reader.Advancing p.readings := by
  rw [← (realizes_draft h).readings 0]
  exact Plan.advancing_readings (by rw [(realizes_draft h).nullable 0, hp])

end TreeQuery.Pattern
