import TreeQuery.Proofs.Pattern.Naming
import TreeQuery.Proofs.Pattern.Spelling

/-! # Joining — patterns put into groups of one pattern

    The signs of a pattern may stand inside of a group of another one. If they spell
    a pattern by themselves, they close every group that they open and no other, so
    they spell the same pattern there, and the group around it becomes one part of
    the larger pattern.

    * **Parts**: what signs spell before its depth is checked.
    * **Inside of a group**: every sign does there what it does alone.
    * **Branches**: patterns in groups of their own, divided by bars, spell the choice
      between these groups, whatever is in them.
-/

namespace TreeQuery.Pattern

/-! ### Parts -/

/-- The part that signs spell, before it is checked. -/
def partOf (lexemes : List Lexeme) : Except Fault Part := do
  let b ← lexemes.foldlM Builder.step Builder.initial
  match b.outer with
  | [] => .ok b.inner.body
  | _ :: _ => .error .unclosedGroup

/-- The part that a text spells, before it is checked. -/
def part (text : String) : Except Fault Part := (Lexeme.read text.toList).bind partOf

/-- The pattern of a part that is not too deep. -/
def Part.checked (p : Part) : Except Fault Pattern :=
  if maxDepth < p.depth then .error .tooDeep else .ok p.pattern

theorem Part.pattern_of_checked {part : Part} {p : Pattern} (h : part.checked = .ok p) :
    part.pattern = p := by
  unfold checked at h
  split at h
  · cases h
  · exact Except.ok.inj h

theorem ofLexemes_eq (lexemes : List Lexeme) :
    ofLexemes lexemes = (partOf lexemes).bind Part.checked := by
  unfold ofLexemes partOf
  cases lexemes.foldlM Builder.step .initial with
  | error fault => rfl
  | ok b =>
    simp only [bind, Except.bind, Builder.finish]
    cases b.outer <;> rfl

theorem ofString_eq (text : String) : ofString text = (part text).bind Part.checked := by
  unfold ofString Pattern.read part
  cases Lexeme.read text.toList with
  | error fault => rfl
  | ok lexemes => exact ofLexemes_eq lexemes

/-! ### Inside of a group -/

section

variable (kind : GroupKind) (around : List Frame)

/-- Open groups as they stand inside of another one: the outermost, which stands for the whole
    pattern, becomes a group of the given kind. -/
def Frame.inside : Frame → List Frame → Frame × List Frame
  | f, [] => ({ f with kind }, around)
  | f, g :: gs => (f, (Frame.inside g gs).1 :: (Frame.inside g gs).2)

/-- A pattern being read as it stands inside of a group. -/
def Builder.inside (names : List String) (b : Builder) : Builder :=
  let frames := Frame.inside kind around b.inner b.outer
  ⟨frames.1, frames.2, names⟩

end

section

variable {kind : GroupKind} {around : List Frame} {names : List String}

theorem Frame.repeatLast_of_kind {f g : Frame} {times : Times} (h : f.repeatLast times = .ok g) :
    ({ f with kind } : Frame).repeatLast times = .ok { g with kind } := by
  unfold Frame.repeatLast at h ⊢
  cases hparts : f.parts with
  | nil =>
    rw [hparts] at h
    cases h
  | cons p ps =>
    rw [hparts] at h
    cases h
    rfl

/-- A sign that names no group does inside of a group what it does alone. -/
theorem Builder.Takes.inside {b b' : Builder} {lexeme : Lexeme} (h : b.Takes lexeme b')
    (hunnamed : lexeme.Named fun _ => False) :
    (b.inside kind around names).Takes lexeme (b'.inside kind around names) := by
  -- the outermost frame is the one that differs, so it matters whether it is the innermost, too
  cases h with
  | @part _ _ p hpart =>
    have hadd : (b.add p).inside kind around names = (b.inside kind around names).add p := by
      obtain ⟨inner, outer, _⟩ := b
      cases outer <;> rfl
    rw [hadd]
    exact .part hpart
  | bar =>
    have hbar : ({ b with inner := b.inner.bar } : Builder).inside kind around names =
        { b.inside kind around names with inner := (b.inside kind around names).inner.bar } := by
      obtain ⟨inner, outer, _⟩ := b
      cases outer <;> rfl
    rw [hbar]
    exact .bar _
  | @times _ times f hrepeat =>
    obtain ⟨inner, outer, _⟩ := b
    cases outer with
    | nil => exact .times (Frame.repeatLast_of_kind hrepeat)
    | cons g gs => exact .times hrepeat
  | enter hkind => exact .enter hkind
  | enterNamed _ => exact hunnamed.elim
  | close inner f fs _ =>
    have hclose : (⟨f.add inner.close, fs, names⟩ : Builder).inside kind around names =
        ⟨(Frame.inside kind around f fs).1.add inner.close, (Frame.inside kind around f fs).2,
          names⟩ := by
      cases fs <;> rfl
    show Builder.Takes _ _ ((⟨f.add inner.close, fs, names⟩ : Builder).inside kind around names)
    rw [hclose]
    exact .close inner _ _ names

theorem foldlM_inside {lexemes : List Lexeme} {b b' : Builder}
    (h : lexemes.foldlM Builder.step b = .ok b')
    (hunnamed : ∀ lexeme ∈ lexemes, lexeme.Named fun _ => False) :
    lexemes.foldlM Builder.step (b.inside kind around names) =
      .ok (b'.inside kind around names) := by
  induction lexemes generalizing b with
  | nil =>
    cases h
    rfl
  | cons lexeme lexemes ih =>
    obtain ⟨hlexeme, hothers⟩ := List.forall_mem_cons.mp hunnamed
    rw [List.foldlM_cons] at h ⊢
    cases hstep : b.step lexeme with
    | error fault =>
      rw [hstep] at h
      cases h
    | ok next =>
      rw [hstep] at h
      have hinside : (b.inside kind around names).step lexeme =
          .ok (next.inside kind around names) :=
        Builder.step_eq_ok_iff.mpr ((Builder.step_eq_ok_iff.mp hstep).inside hlexeme)
      rw [hinside]
      exact ih h hothers

end

/-! ### Branches -/

/-- A pattern without named groups that goes into a group of its own. -/
structure Branch where
  name : String
  lexemes : List Lexeme
  part : Part
  unnamed : ∀ lexeme ∈ lexemes, lexeme.Named fun _ => False
  spells : partOf lexemes = .ok part

/-- A part in a named group. -/
def Part.group (p : Part) (name : String) : Part :=
  ⟨.group (some name) p.pattern, p.depth + 1⟩

namespace Branch

/-- The part that the group of a branch stands for. -/
def group (b : Branch) : Part := b.part.group b.name

/-- The signs of a branch in its group. -/
def signs (b : Branch) : List Lexeme :=
  .opening (.remembered (some b.name)) :: (b.lexemes ++ [.closing])

/-- The signs of several branches, divided by bars. -/
def signsOf : List Branch → List Lexeme
  | [] => []
  | [b] => b.signs
  | b :: c :: bs => b.signs ++ .bar :: signsOf (c :: bs)

/-- The signs of a branch add one part to the group around it. -/
theorem foldlM_signs (branch : Branch) {b : Builder} (hname : branch.name ∉ b.names) :
    branch.signs.foldlM Builder.step b =
      .ok { b.add branch.group with names := branch.name :: b.names } := by
  have hspells := branch.spells
  unfold partOf at hspells
  cases hrun : branch.lexemes.foldlM Builder.step .initial with
  | error fault =>
    rw [hrun] at hspells
    cases hspells
  | ok e =>
    rw [hrun] at hspells
    obtain ⟨inner, outer, names⟩ := e
    cases outer with
    | cons f fs => cases hspells
    | nil =>
      have hpart : inner.body = branch.part := Except.ok.inj hspells
      -- the signs do in the group what they do alone, and then the group is closed
      have hinside := @foldlM_inside (.remembered (some branch.name)) (b.inner :: b.outer)
        (branch.name :: b.names) _ _ _ hrun branch.unnamed
      have henter : b.step (.opening (.remembered (some branch.name))) =
          .ok (Builder.initial.inside (.remembered (some branch.name)) (b.inner :: b.outer)
            (branch.name :: b.names)) :=
        Builder.step_eq_ok_iff.mpr (.enterNamed hname)
      unfold signs
      rw [List.foldlM_cons, henter]
      show (branch.lexemes ++ [Lexeme.closing]).foldlM Builder.step _ = _
      rw [List.foldlM_append, hinside]
      unfold group
      rw [← hpart]
      rfl

theorem sequence_group (b : Branch) : Part.sequence [b.group] = b.group := by
  have hlength : [b.group].length < 2 := Nat.lt_succ_self 1
  unfold Part.sequence Part.depthOver
  rw [if_pos hlength]
  simp only [List.foldr_cons, List.foldr_nil, Nat.max_zero]
  rfl

/-- The signs of several branches spell the choice between their groups, behind the alternatives
    that have been read before. -/
theorem foldlM_signsOf {bs : List Branch} (hbs : bs ≠ []) (done : List Part) {names : List String}
    (hnodup : (bs.map name).Nodup) (hnames : ∀ b ∈ bs, b.name ∉ names) :
    ∃ e : Builder, (signsOf bs).foldlM Builder.step ⟨⟨.plain, done.reverse, []⟩, [], names⟩ =
      .ok e ∧ e.outer = [] ∧ e.inner.body = .choice (done ++ bs.map group) := by
  -- by induction on the branches: a bar moves the group in front of it to those that are done
  induction bs generalizing done names with
  | nil => exact absurd rfl hbs
  | cons b bs ih =>
    obtain ⟨hb, hrest⟩ := List.forall_mem_cons.mp hnames
    obtain ⟨hnew, hnodup⟩ := List.nodup_cons.mp hnodup
    have hfirst := b.foldlM_signs (b := ⟨⟨.plain, done.reverse, []⟩, [], names⟩) hb
    cases bs with
    | nil =>
      refine ⟨_, hfirst, rfl, ?_⟩
      show Part.choice (.sequence [b.group] :: done.reverse).reverse = _
      rw [sequence_group, List.reverse_cons, List.reverse_reverse]
      rfl
    | cons c bs =>
      have hothers : ∀ d ∈ c :: bs, d.name ∉ b.name :: names := by
        intro d hd
        rw [List.mem_cons, not_or]
        refine ⟨?_, hrest d hd⟩
        rintro heq
        exact hnew (heq ▸ List.mem_map_of_mem hd)
      obtain ⟨e, he, houter, hbody⟩ := ih (List.cons_ne_nil c bs) (done ++ [b.group]) hnodup
        hothers
      refine ⟨e, ?_, houter, ?_⟩
      · rw [signsOf, List.foldlM_append, hfirst, ← he]
        have hbar : (⟨⟨.plain, done.reverse, [b.group]⟩, [], b.name :: names⟩ : Builder).step .bar =
            .ok ⟨⟨.plain, (done ++ [b.group]).reverse, []⟩, [], b.name :: names⟩ := by
          show Except.ok (⟨⟨.plain, .sequence [b.group] :: done.reverse, []⟩, [], _⟩ : Builder) = _
          rw [sequence_group, List.reverse_append]
          rfl
        show (Lexeme.bar :: signsOf (c :: bs)).foldlM Builder.step
          ⟨⟨.plain, done.reverse, [b.group]⟩, [], b.name :: names⟩ = _
        rw [List.foldlM_cons, hbar]
        rfl
      · rw [hbody, List.append_assoc]
        rfl

/-- Nothing is drawn out of a choice between groups. -/
theorem choice_groups (bs : List Branch) :
    Pattern.choice (bs.map fun b => b.group.pattern) =
      firstOf (bs.map fun b => b.group.pattern) := by
  match bs with
  | [] => rfl
  | [b] => rfl
  | b :: c :: bs => rfl

/-- The choice between the groups of branches. -/
def choice (bs : List Branch) : Part :=
  ⟨firstOf (bs.map fun b => b.group.pattern), Part.depthOver (bs.map group)⟩

/-- **Branches**: the signs of branches, divided by bars, spell the choice between their groups. -/
theorem partOf_signsOf {bs : List Branch} (hnodup : (bs.map name).Nodup) :
    partOf (signsOf bs) = .ok (choice bs) := by
  cases bs with
  | nil => rfl
  | cons b bs =>
    obtain ⟨e, he, houter, hbody⟩ := foldlM_signsOf (List.cons_ne_nil b bs) [] hnodup
      fun _ _ => List.not_mem_nil
    unfold partOf
    have hrun : (signsOf (b :: bs)).foldlM Builder.step .initial = .ok e := he
    rw [hrun]
    show (match e.outer with | [] => Except.ok e.inner.body | _ :: _ => _) = _
    rw [houter, hbody, List.nil_append]
    unfold Part.choice choice
    rw [← choice_groups, List.map_map]
    rfl

end Branch

end TreeQuery.Pattern
