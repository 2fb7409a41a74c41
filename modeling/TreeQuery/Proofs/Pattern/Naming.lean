import TreeQuery.Pattern.Source

/-! # Naming — a pattern has no groups but those that are written

    The signs of a written pattern are put together in a roundabout way: sequences
    are taken apart and joined, what all alternatives begin with is drawn out, and
    sets are merged. All the same, every named group of the pattern was opened by
    a sign.

    * **Names of a pattern**: all its groups have allowed names.
    * **Putting patterns together** keeps to the names of the parts.
    * **Reading the signs** keeps to the names that the signs give.
-/

namespace TreeQuery.Pattern

section

variable (allowed : String → Prop)

/-- The named groups of a pattern have allowed names. -/
def Named : Pattern → Prop
  | .empty | .one _ | .start | .finish => True
  | .seq first second => first.Named ∧ second.Named
  | .alt preferred other => preferred.Named ∧ other.Named
  | .group none body => body.Named
  | .group (some name) body => allowed name ∧ body.Named
  | .repeated _ body => body.Named

/-- A group has an allowed name, if it has one. -/
def GroupKind.Named : GroupKind → Prop
  | .remembered (some name) => allowed name
  | .remembered none | .plain => True

/-- A sign gives an allowed name, if it gives one. -/
def Lexeme.Named : Lexeme → Prop
  | .opening kind => kind.Named allowed
  | .char _ | .set _ _ | .start | .finish | .closing | .bar | .times _ => True

/-- All that has been read of an open group keeps to allowed names. -/
structure Frame.Named (f : Frame) : Prop where
  kind : f.kind.Named allowed
  branches : ∀ p ∈ f.branches, p.pattern.Named allowed
  parts : ∀ p ∈ f.parts, p.pattern.Named allowed

end

variable {allowed : String → Prop}

theorem named_of_forall (h : ∀ name, allowed name) (p : Pattern) : p.Named allowed := by
  induction p with
  | empty | one | start | finish => trivial
  | seq first second ihf ihs => exact ⟨ihf, ihs⟩
  | alt preferred other ihp iho => exact ⟨ihp, iho⟩
  | group name body ih =>
    cases name with
    | none => exact ih
    | some name => exact ⟨h name, ih⟩
  | repeated times body ih => exact ih

/-! ### Putting patterns together -/

theorem Named.parts {p : Pattern} (h : p.Named allowed) : ∀ q ∈ p.parts, q.Named allowed := by
  induction p with
  | empty => exact List.forall_mem_nil _
  | seq first second ihf ihs =>
    intro q hq
    rcases List.mem_append.mp hq with hq | hq
    · exact ihf h.1 q hq
    · exact ihs h.2 q hq
  | one | start | finish | alt | group | repeated =>
    intro q hq
    rw [List.mem_singleton.mp hq]
    exact h

theorem named_chain {ps : List Pattern} (h : ∀ p ∈ ps, p.Named allowed) :
    (chain ps).Named allowed := by
  induction ps with
  | nil => trivial
  | cons p ps ih =>
    have hp := h p List.mem_cons_self
    have hps := ih fun q hq => h q (List.mem_cons_of_mem p hq)
    cases ps with
    | nil => exact hp
    | cons q ps => exact ⟨hp, hps⟩

theorem named_sequence {ps : List Pattern} (h : ∀ p ∈ ps, p.Named allowed) :
    (sequence ps).Named allowed := by
  apply named_chain
  intro q hq
  obtain ⟨p, hp, hq⟩ := List.mem_flatMap.mp hq
  exact (h p hp).parts q hq

theorem named_firstOf {ps : List Pattern} (h : ∀ p ∈ ps, p.Named allowed) :
    (firstOf ps).Named allowed := by
  induction ps with
  | nil => trivial
  | cons p ps ih =>
    have hp := h p List.mem_cons_self
    have hps := ih fun q hq => h q (List.mem_cons_of_mem p hq)
    cases ps with
    | nil => exact hp
    | cons q ps => exact ⟨hp, hps⟩

/-- The units of a sequence are its parts taken together. -/
theorem flatten_units (ps : List Pattern) : (units ps).flatten = ps := by
  induction ps with
  | nil => rfl
  | cons p ps ih =>
    unfold units
    split
    · next q qs more heq =>
      rw [heq] at ih
      split
      · rw [← ih]
        rfl
      · rw [← ih]
        rfl
    · rw [List.flatten_cons, ih]
      rfl

theorem isPrefix_sharedWith (us vs : List (List Pattern)) : sharedWith us vs <+: us := by
  induction us generalizing vs with
  | nil => exact List.prefix_refl []
  | cons u us ih =>
    cases vs with
    | nil => exact List.nil_prefix
    | cons v vs =>
      unfold sharedWith
      split
      · exact List.cons_prefix_cons.mpr ⟨rfl, ih vs⟩
      · exact List.nil_prefix

theorem isPrefix_foldl_sharedWith (us : List (List Pattern))
    (branches : List (List (List Pattern))) : branches.foldl sharedWith us <+: us := by
  induction branches generalizing us with
  | nil => exact List.prefix_refl us
  | cons vs branches ih => exact (ih (sharedWith us vs)).trans (isPrefix_sharedWith us vs)

/-- What all alternatives begin with comes from the first of them. -/
theorem sharedLead_subset {branches : List (List (List Pattern))} {u : List Pattern}
    (hu : u ∈ sharedLead branches) : ∃ branch ∈ branches, u ∈ branch := by
  cases branches with
  | nil => cases hu
  | cons branch branches =>
    refine ⟨branch, List.mem_cons_self, ?_⟩
    simp only [sharedLead] at hu
    split at hu
    · cases hu
    · exact (isPrefix_foldl_sharedWith branch branches).subset hu

theorem named_choice {ps : List Pattern} (h : ∀ p ∈ ps, p.Named allowed) :
    (choice ps).Named allowed := by
  cases ps with
  | nil => trivial
  | cons p ps =>
    cases ps with
    | nil => exact h p List.mem_cons_self
    | cons q ps =>
      have hunits : ∀ us ∈ (p :: q :: ps).map (fun p => units p.parts), ∀ u ∈ us, ∀ r ∈ u,
          r.Named allowed := by
        intro us hus u hu r hr
        obtain ⟨s, hs, rfl⟩ := List.mem_map.mp hus
        apply (h s hs).parts
        rw [← flatten_units s.parts]
        exact List.mem_flatten.mpr ⟨u, hu, hr⟩
      unfold choice
      simp only
      split
      · trivial
      · exact named_firstOf h
      · apply named_sequence
        intro r hr
        rcases List.mem_append.mp hr with hr | hr
        · -- what is drawn out comes from the first alternative
          obtain ⟨u, hu, hr⟩ := List.mem_flatten.mp hr
          obtain ⟨us, hus, hu⟩ := sharedLead_subset hu
          exact hunits us hus u hu r hr
        · rw [List.mem_singleton.mp hr]
          apply named_firstOf
          intro s hs
          obtain ⟨us, hus, rfl⟩ := List.mem_map.mp hs
          apply named_chain
          intro r hr
          obtain ⟨u, hu, hr⟩ := List.mem_flatten.mp hr
          exact hunits us hus u (List.mem_of_mem_drop hu) r hr

theorem named_repetition {p : Pattern} (times : Times) (h : p.Named allowed) :
    (repetition times p).Named allowed := by
  unfold repetition
  simp only
  generalize (if p.isBlank then times.capped else times) = times
  split
  · trivial
  · split
    · exact h
    · exact h

/-! ### Reading the signs -/

theorem Part.named_sequence {parts : List Part} (h : ∀ p ∈ parts, p.pattern.Named allowed) :
    (Part.sequence parts).pattern.Named allowed := by
  apply Pattern.named_sequence
  intro q hq
  obtain ⟨p, hp, rfl⟩ := List.mem_map.mp hq
  exact h p hp

theorem Part.named_choice {parts : List Part} (h : ∀ p ∈ parts, p.pattern.Named allowed) :
    (Part.choice parts).pattern.Named allowed := by
  apply Pattern.named_choice
  intro q hq
  obtain ⟨p, hp, rfl⟩ := List.mem_map.mp hq
  exact h p hp

namespace Frame.Named

variable {f : Frame}

theorem opened {kind : GroupKind} (h : kind.Named allowed) :
    (Frame.opened kind).Named allowed :=
  ⟨h, List.forall_mem_nil _, List.forall_mem_nil _⟩

theorem add (h : f.Named allowed) {p : Part} (hp : p.pattern.Named allowed) :
    (f.add p).Named allowed :=
  ⟨h.kind, h.branches, List.forall_mem_cons.mpr ⟨hp, h.parts⟩⟩

theorem sequence (h : f.Named allowed) :
    (Part.sequence f.parts.reverse).pattern.Named allowed :=
  Part.named_sequence fun p hp => h.parts p (List.mem_reverse.mp hp)

theorem bar (h : f.Named allowed) : f.bar.Named allowed :=
  ⟨h.kind, List.forall_mem_cons.mpr ⟨h.sequence, h.branches⟩, List.forall_mem_nil _⟩

theorem body (h : f.Named allowed) : f.body.pattern.Named allowed := by
  apply Part.named_choice
  intro p hp
  rcases List.mem_cons.mp (List.mem_reverse.mp hp) with rfl | hp
  · exact h.sequence
  · exact h.branches p hp

theorem close (h : f.Named allowed) : f.close.pattern.Named allowed := by
  have hkind := h.kind
  unfold Frame.close
  split
  · exact h.body
  · next name heq =>
    rw [heq] at hkind
    cases name with
    | none => exact h.body
    | some name => exact ⟨hkind, h.body⟩

theorem repeatLast (h : f.Named allowed) {times : Times} {g : Frame}
    (hg : f.repeatLast times = .ok g) : g.Named allowed := by
  unfold Frame.repeatLast at hg
  split at hg
  · cases hg
  · next p ps heq =>
    have hparts := h.parts
    rw [heq] at hparts
    cases hg
    refine ⟨h.kind, h.branches, List.forall_mem_cons.mpr ⟨?_, ?_⟩⟩
    · exact named_repetition times (hparts p List.mem_cons_self)
    · exact fun q hq => hparts q (List.mem_cons_of_mem p hq)

end Frame.Named

/-- The part that a sign stands for by itself. -/
def Lexeme.part? : Lexeme → Option Part
  | .char letters => some ⟨.one letters, 0⟩
  | .set letters members => some (.ofSet letters members)
  | .start => some ⟨.start, 0⟩
  | .finish => some ⟨.finish, 0⟩
  | .opening _ | .closing | .bar | .times _ => none

/-- What one sign does to a pattern being read. -/
inductive Builder.Takes : Builder → Lexeme → Builder → Prop where
  | part {b : Builder} {lexeme : Lexeme} {p : Part} :
      lexeme.part? = some p → Takes b lexeme (b.add p)
  | bar (b : Builder) : Takes b .bar { b with inner := b.inner.bar }
  | times {b : Builder} {times : Times} {f : Frame} :
      b.inner.repeatLast times = .ok f → Takes b (.times times) { b with inner := f }
  | enter {b : Builder} {kind : GroupKind} :
      (∀ name, kind ≠ .remembered (some name)) → Takes b (.opening kind) (b.enter kind)
  | enterNamed {b : Builder} {name : String} :
      name ∉ b.names → Takes b (.opening (.remembered (some name)))
        { b.enter (.remembered (some name)) with names := name :: b.names }
  | close (inner f : Frame) (fs : List Frame) (names : List String) :
      Takes ⟨inner, f :: fs, names⟩ .closing ⟨f.add inner.close, fs, names⟩

theorem Builder.step_eq_ok_iff {b b' : Builder} {lexeme : Lexeme} :
    b.step lexeme = .ok b' ↔ b.Takes lexeme b' := by
  constructor
  · intro h
    cases lexeme with
    | char set =>
      cases h
      exact .part rfl
    | set set members =>
      cases h
      exact .part rfl
    | start =>
      cases h
      exact .part rfl
    | finish =>
      cases h
      exact .part rfl
    | bar =>
      cases h
      exact .bar b
    | times times =>
      cases hrepeat : b.inner.repeatLast times with
      | error fault =>
        simp only [step, hrepeat] at h
        cases h
      | ok f =>
        simp only [step, hrepeat] at h
        cases h
        exact .times hrepeat
    | opening kind =>
      match kind with
      | .plain =>
        cases h
        exact .enter nofun
      | .remembered none =>
        cases h
        exact .enter nofun
      | .remembered (some name) =>
        simp only [step] at h
        split at h
        · cases h
        · next hname =>
          cases h
          exact .enterNamed hname
    | closing =>
      obtain ⟨inner, outer, names⟩ := b
      cases outer with
      | nil => cases h
      | cons f fs =>
        cases h
        exact .close inner f fs names
  · intro h
    cases h with
    | @part _ _ p hpart =>
      cases lexeme with
      | char | set | start | finish =>
        cases hpart
        rfl
      | opening | closing | bar | times => cases hpart
    | bar => rfl
    | times hrepeat =>
      simp only [step, hrepeat]
      rfl
    | @enter _ kind hkind =>
      match kind with
      | .plain => rfl
      | .remembered none => rfl
      | .remembered (some name) => exact absurd rfl (hkind name)
    | enterNamed hname =>
      simp only [step]
      rw [if_neg hname]
    | close => rfl

/-- Every group still open keeps to allowed names. -/
def Builder.Named (allowed : String → Prop) (b : Builder) : Prop :=
  ∀ f ∈ b.inner :: b.outer, f.Named allowed

theorem Builder.Takes.named {b b' : Builder} {lexeme : Lexeme} (h : b.Takes lexeme b')
    (hlexeme : lexeme.Named allowed) (hb : b.Named allowed) : b'.Named allowed := by
  obtain ⟨hinner, houter⟩ := List.forall_mem_cons.mp hb
  cases h with
  | @part _ _ p hpart =>
    have hp : p.pattern.Named allowed := by
      cases lexeme with
      | char | set | start | finish =>
        cases hpart
        trivial
      | opening | closing | bar | times => cases hpart
    exact List.forall_mem_cons.mpr ⟨hinner.add hp, houter⟩
  | bar => exact List.forall_mem_cons.mpr ⟨hinner.bar, houter⟩
  | times hrepeat => exact List.forall_mem_cons.mpr ⟨hinner.repeatLast hrepeat, houter⟩
  | enter _ => exact List.forall_mem_cons.mpr ⟨.opened hlexeme, hb⟩
  | enterNamed _ => exact List.forall_mem_cons.mpr ⟨.opened hlexeme, hb⟩
  | close inner f fs names =>
    obtain ⟨hf, hfs⟩ := List.forall_mem_cons.mp houter
    exact List.forall_mem_cons.mpr ⟨hf.add hinner.close, hfs⟩

theorem Builder.named_foldlM {lexemes : List Lexeme} {b b' : Builder} (hb : b.Named allowed)
    (hlexemes : ∀ lexeme ∈ lexemes, lexeme.Named allowed)
    (h : lexemes.foldlM step b = .ok b') : b'.Named allowed := by
  induction lexemes generalizing b with
  | nil =>
    cases h
    exact hb
  | cons lexeme lexemes ih =>
    obtain ⟨hlexeme, hothers⟩ := List.forall_mem_cons.mp hlexemes
    rw [List.foldlM_cons] at h
    cases hstep : b.step lexeme with
    | error fault =>
      rw [hstep] at h
      cases h
    | ok next =>
      rw [hstep] at h
      exact ih ((step_eq_ok_iff.mp hstep).named hlexeme hb) hothers h

/-- **Names of a written pattern**: its named groups are those that its signs open. -/
theorem named_ofLexemes {lexemes : List Lexeme} {p : Pattern}
    (hlexemes : ∀ lexeme ∈ lexemes, lexeme.Named allowed) (h : ofLexemes lexemes = .ok p) :
    p.Named allowed := by
  have hinitial : Builder.initial.Named allowed :=
    List.forall_mem_cons.mpr ⟨.opened trivial, List.forall_mem_nil _⟩
  unfold ofLexemes at h
  cases hrun : lexemes.foldlM Builder.step .initial with
  | error fault =>
    rw [hrun] at h
    cases h
  | ok b =>
    rw [hrun] at h
    have hinner := Builder.named_foldlM hinitial hlexemes hrun b.inner List.mem_cons_self
    simp only [bind, Except.bind, Builder.finish] at h
    split at h
    · split at h
      · cases h
      · cases h
        exact hinner.body
    · cases h

end TreeQuery.Pattern
