import TreeQuery.Selector.Tokenizing

/-! # Strict and lenient reading are one run

    The mode decides only what becomes of misplaced text. So a strict and a lenient
    reading of the same selector go together until the lenient one warns for the
    first time, and that is where the strict one fails.

    * **Words of a fault**: what is said about misplaced text tells which text it
      is and where it stands, so a warning can be compared by its words.
    * **Runs up to a warning**: a relation between a strict and a lenient run that
      is kept when both go on with runs that are related.
    * **Reading**: the two modes are related at every check, and so for a whole
      selector.
-/

namespace TreeQuery

/-! ### Warnings -/

namespace Journal

variable {ε α β : Type}

/-- The warnings among the events of a run. -/
def warnings (j : Journal ε α) : List Event :=
  j.events.filter fun e => e.level = .warn

theorem warnings_bind_of_ok {j : Journal ε α} {a : α} (h : j.outcome = .ok a)
    (next : α → Journal ε β) : (j >>= next).warnings = j.warnings ++ (next a).warnings := by
  unfold warnings
  rw [bind_of_ok h, List.filter_append]

theorem warnings_bind_of_error {j : Journal ε α} {fault : ε} (h : j.outcome = .error fault)
    (next : α → Journal ε β) : (j >>= next).warnings = j.warnings := by
  unfold warnings
  rw [bind_of_error h]

end Journal

namespace Selector

/-! ### Words of a fault -/

/-- Behind the space in front of a number there is no other space. -/
theorem eq_of_space_digits_eq {more ds ds' : List Char} (hds : ∀ c ∈ ds, c.isDigit = true)
    (h : ' ' :: ds = more ++ ' ' :: ds') : more = [] ∧ ds = ds' := by
  cases more with
  | nil => exact ⟨rfl, (List.cons.inj h).2⟩
  | cons c more =>
    have hmem : ' ' ∈ ds := by
      rw [(List.cons.inj h).2]
      exact List.mem_append_right more List.mem_cons_self
    have hdigit := hds ' ' hmem
    exact absurd hdigit (by decide)

/-- A number at the end of a text can be told from what stands in front of it. -/
theorem append_space_digits_inj {cs cs' ds ds' : List Char} (hds : ∀ c ∈ ds, c.isDigit = true)
    (hds' : ∀ c ∈ ds', c.isDigit = true) (h : cs ++ ' ' :: ds = cs' ++ ' ' :: ds') :
    cs = cs' ∧ ds = ds' := by
  rcases List.append_eq_append_iff.mp h with ⟨more, hcs, hrest⟩ | ⟨more, hcs, hrest⟩
  · obtain ⟨rfl, rfl⟩ := eq_of_space_digits_eq hds hrest
    exact ⟨(List.append_nil cs ▸ hcs).symm, rfl⟩
  · obtain ⟨rfl, rfl⟩ := eq_of_space_digits_eq hds' hrest
    exact ⟨List.append_nil cs' ▸ hcs, rfl⟩

theorem isDigit_of_mem_toString {n : Nat} {c : Char} (h : c ∈ (toString n).toList) :
    c.isDigit = true := by
  rw [Nat.toString_eq_ofList_toDigits, String.toList_ofList] at h
  exact Nat.isDigit_of_mem_toDigits (by decide) (by decide) h

theorem toList_toString_injective {n n' : Nat} (h : (toString n).toList = (toString n').toList) :
    n = n' := by
  simp only [Nat.toString_eq_ofList_toDigits, String.toList_ofList] at h
  have hback := congrArg (fun digits => Nat.ofDigitChars 10 digits 0) h
  simpa only [Nat.ofDigitChars_ten_toDigits] using hback

/-- What is said about misplaced text tells the text and its place. -/
theorem Malformed.message_injective {m m' : Malformed} (h : m.message = m'.message) : m = m' := by
  obtain ⟨position, fragment⟩ := m
  obtain ⟨position', fragment'⟩ := m'
  unfold message at h
  have hbyte : "\x60 in selector at byte " = "\x60 in selector at byte" ++ " " := by decide
  have hspace : " ".toList = [' '] := by decide
  simp only [String.append_left_inj, hbyte, ← String.append_assoc] at h
  have hlist := congrArg String.toList h
  simp only [String.toList_append, hspace, List.append_assoc, List.singleton_append] at hlist
  simp only [← List.append_assoc] at hlist
  -- the position is the number at the end, and the fragment is what stands in front of it
  obtain ⟨hfront, hposition⟩ := append_space_digits_inj (fun _ => isDigit_of_mem_toString)
    (fun _ => isDigit_of_mem_toString) hlist
  have hpositions : position = position' := toList_toString_injective hposition
  have hfragments : fragment.toList = fragment'.toList := by
    simpa only [List.append_cancel_right_eq, List.append_cancel_left_eq] using hfront
  rw [hpositions, String.toList_inj.mp hfragments]

/-! ### Runs up to a warning -/

/-- A strict run against a lenient one: they end alike as long as the lenient run does not warn,
    and what it warns of first is what the strict run fails on. -/
inductive UpToWarning {α : Type} (strict lenient : Journal Fault α) : Prop where
  | quiet : lenient.warnings = [] → strict.outcome = lenient.outcome → UpToWarning strict lenient
  | warned (m : Malformed) (later : List Event) : lenient.warnings = .ignored m :: later →
      strict.outcome = .error (.malformed m) → UpToWarning strict lenient

/-- A run that misplaced text does not end. -/
def Tolerates {α : Type} (lenient : Journal Fault α) : Prop :=
  ∀ m, lenient.outcome ≠ .error (.malformed m)

section

variable {α β : Type}

/-- Related runs that go on with related runs are related. -/
theorem UpToWarning.bind {strict lenient : Journal Fault α} {next next' : α → Journal Fault β}
    (h : UpToWarning strict lenient) (hnext : ∀ a, UpToWarning (next a) (next' a)) :
    UpToWarning (strict >>= next) (lenient >>= next') := by
  cases h with
  | quiet hquiet hsame =>
    cases hlenient : lenient.outcome with
    | ok a =>
      -- both go on with the same value
      rw [hlenient] at hsame
      have hwarnings := Journal.warnings_bind_of_ok hlenient next'
      rw [hquiet, List.nil_append] at hwarnings
      have hstrict : (strict >>= next).outcome = (next a).outcome := by
        rw [Journal.bind_of_ok hsame]
      have htolerant : (lenient >>= next').outcome = (next' a).outcome := by
        rw [Journal.bind_of_ok hlenient]
      cases hnext a with
      | quiet hquiet' hsame' =>
        refine .quiet (hwarnings.trans hquiet') ?_
        rw [hstrict, htolerant, hsame']
      | warned m later hwarned hfails =>
        exact .warned m later (hwarnings.trans hwarned) (hstrict.trans hfails)
    | error fault =>
      -- both stop at the same fault
      rw [hlenient] at hsame
      refine .quiet ((Journal.warnings_bind_of_error hlenient next').trans hquiet) ?_
      rw [Journal.bind_of_error hsame, Journal.bind_of_error hlenient]
  | warned m later hwarned hfails =>
    -- the strict run has failed, and the lenient one may only warn again
    have hstrict : (strict >>= next).outcome = .error (.malformed m) := by
      rw [Journal.bind_of_error hfails]
    cases hlenient : lenient.outcome with
    | ok a =>
      refine .warned m (later ++ (next' a).warnings) ?_ hstrict
      rw [Journal.warnings_bind_of_ok hlenient, hwarned, List.cons_append]
    | error fault =>
      exact .warned m later ((Journal.warnings_bind_of_error hlenient _).trans hwarned) hstrict

theorem Tolerates.bind {lenient : Journal Fault α} {next : α → Journal Fault β}
    (h : Tolerates lenient) (hnext : ∀ a, Tolerates (next a)) : Tolerates (lenient >>= next) := by
  intro m hm
  rcases Journal.outcome_bind_eq_error_iff.mp hm with hm | ⟨a, -, hm⟩
  · exact h m hm
  · exact hnext a m hm

/-- The strict and the lenient run of one computation. -/
structure SameRun (strict lenient : Journal Fault α) : Prop where
  upToWarning : UpToWarning strict lenient
  tolerates : Tolerates lenient

/-- A computation that does not know the mode and has nothing to do with misplaced text. -/
theorem SameRun.refl {j : Journal Fault α} (hquiet : j.warnings = []) (h : Tolerates j) :
    SameRun j j :=
  ⟨.quiet hquiet rfl, h⟩

theorem SameRun.bind {strict lenient : Journal Fault α} {next next' : α → Journal Fault β}
    (h : SameRun strict lenient) (hnext : ∀ a, SameRun (next a) (next' a)) :
    SameRun (strict >>= next) (lenient >>= next') where
  upToWarning := h.upToWarning.bind fun a => (hnext a).upToWarning
  tolerates := h.tolerates.bind fun a => (hnext a).tolerates

end

/-! ### Reading -/

theorem sameRun_misplaced (m : Malformed) : SameRun (misplaced .strict m) (misplaced .lenient m) :=
  ⟨.warned m [] rfl rfl, nofun⟩

theorem sameRun_checkGap (subject : List Char) (start stop : Nat) :
    SameRun (checkGap .strict subject start stop) (checkGap .lenient subject start stop) := by
  unfold checkGap
  dsimp only
  split
  · exact .refl rfl nofun
  · exact sameRun_misplaced _

theorem sameRun_checkBefore (subject : List Char) (previous : Option Nat) (hit : Hit) :
    SameRun (checkBefore .strict subject previous hit)
      (checkBefore .lenient subject previous hit) := by
  unfold checkBefore
  split
  · exact sameRun_misplaced _
  · exact sameRun_checkGap subject _ _

/-- The modes go together along the hits: a hit without a kind ends both readings. -/
theorem sameRun_tokensOf (subject : List Char) (previous : Option Nat) (hits : List Hit) :
    SameRun (tokensOf .strict subject previous hits)
      (tokensOf .lenient subject previous hits) := by
  induction hits generalizing previous with
  | nil =>
    apply (sameRun_checkGap subject _ _).bind
    intro _
    exact .refl rfl nofun
  | cons hit hits ih =>
    unfold tokensOf
    cases hit.rule.kind? with
    | none => exact .refl rfl nofun
    | some kind =>
      apply (sameRun_checkBefore subject previous hit).bind
      intro _
      apply (ih (some hit.stop)).bind
      intro _
      exact .refl rfl nofun

theorem sameRun_tokenize (g : Grammar) (selector : String) :
    SameRun (tokenize g .strict selector) (tokenize g .lenient selector) := by
  apply (sameRun_tokensOf _ none _).bind
  intro tokens
  exact .refl rfl nofun

/-- **Main theorem**: strict and lenient reading of a selector are the same run up to the first
    complaint. Strict reading has the tokens of lenient reading if that does not warn, it fails on
    what lenient reading warns of first, and otherwise both fail on the same unsupported simple
    selector. Lenient reading never fails on misplaced text. -/
theorem tokenize_strict_iff_lenient (g : Grammar) (selector : String) :
    (∀ tokens, (tokenize g .strict selector).outcome = .ok tokens ↔
      (tokenize g .lenient selector).outcome = .ok tokens ∧
        (tokenize g .lenient selector).warnings = []) ∧
    (∀ m, (tokenize g .strict selector).outcome = .error (.malformed m) ↔
      (tokenize g .lenient selector).warnings.head?.map Event.message =
        some ("ignoring " ++ m.message)) ∧
    (∀ u, (tokenize g .strict selector).outcome = .error (.unsupported u) ↔
      (tokenize g .lenient selector).outcome = .error (.unsupported u) ∧
        (tokenize g .lenient selector).warnings = []) ∧
    ∀ m, (tokenize g .lenient selector).outcome ≠ .error (.malformed m) := by
  have hrun := sameRun_tokenize g selector
  have htolerates := hrun.tolerates
  cases hrun.upToWarning with
  | quiet hquiet hsame =>
    rw [hsame, hquiet]
    refine ⟨fun tokens => by simp, fun m => ?_, fun u => by simp, htolerates⟩
    have hnot := htolerates m
    simpa using hnot
  | warned m later hwarned hfails =>
    rw [hfails, hwarned]
    refine ⟨fun tokens => by simp, fun m' => ?_, fun u => by simp, htolerates⟩
    simp only [List.head?_cons, Option.map_some, Option.some.injEq, Except.error.injEq,
      Fault.malformed.injEq]
    constructor
    · rintro rfl
      rfl
    · intro hmessage
      have hwords : m.message = m'.message := (String.append_right_inj "ignoring ").mp hmessage
      exact Malformed.message_injective hwords

/-- Templates for words of small letters. -/
def letterTemplates : Templates where
  definitions := Definitions.empty.insert "w" "[a-z]+"
  rules
    | .nameAndId => some "#\x7bw\x7d##\x7bw\x7d"
    | .id => some "##\x7bw\x7d"
    | .className => some "[.]#\x7bw\x7d"
    | .nameAndClass => some "#\x7bw\x7d[.]#\x7bw\x7d"
    | .name => some "#\x7bw\x7d"
    | .pseudoClass => some ":#\x7bw\x7d"

/-- Lenient reading warns of two combinators, and strict reading fails on the first of them. -/
theorem tokenize_strict_iff_lenient_combinators :
    ∃ g, (Grammar.build .unlimited letterTemplates).outcome = .ok g ∧
      (tokenize g .lenient "ul > li + b").outcome =
        .ok [⟨"ul", .name⟩, ⟨"li", .name⟩, ⟨"b", .name⟩] ∧
      (tokenize g .lenient "ul > li + b").warnings = [.ignored ⟨2, " > "⟩, .ignored ⟨7, " + "⟩] ∧
      (tokenize g .strict "ul > li + b").outcome = .error (.malformed ⟨2, " > "⟩) := by
  have hread : ((Grammar.build .unlimited letterTemplates).outcome.toOption.map fun g =>
      ((tokenize g .lenient "ul > li + b").outcome.toOption,
        (tokenize g .lenient "ul > li + b").warnings)) =
      some (some [⟨"ul", .name⟩, ⟨"li", .name⟩, ⟨"b", .name⟩],
        [.ignored ⟨2, " > "⟩, .ignored ⟨7, " + "⟩]) := by decide +kernel
  obtain ⟨g, hg, hlenient⟩ := Option.map_eq_some_iff.mp hread
  obtain ⟨htokens, hwarnings⟩ := Prod.mk.inj hlenient
  have hstrict := (tokenize_strict_iff_lenient g "ul > li + b").2.1 ⟨2, " > "⟩
  refine ⟨g, Journal.eq_ok_of_toOption hg, Journal.eq_ok_of_toOption htokens, hwarnings, ?_⟩
  apply hstrict.mpr
  rw [hwarnings]
  rfl

end Selector

end TreeQuery
