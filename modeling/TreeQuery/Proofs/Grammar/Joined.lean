import Mathlib.Data.List.Nodup
import TreeQuery.Proofs.Grammar.Standard
import TreeQuery.Proofs.Pattern.Joining

/-! # Joined fragments — every fragment in the group of its rule

    The fragments of the rules are put into groups and joined as text, and this text
    is read as one pattern. A fragment that is a pattern by itself and names no groups
    is read there as it is alone, whatever bars are in it.

    * **Named groups** that a text opens.
    * **Fragments as branches**: the joined text has the signs of the fragments, each
      in the group of its rule, divided by bars.
    * **The joined pattern** is the choice between the groups of the rules. It is
      deeper and larger than the fragments, and may be refused for that.
-/

namespace TreeQuery.Pattern

/-! ### Named groups -/

/-- The name that a sign gives to a group, if it gives one. -/
def Lexeme.groupName? : Lexeme → Option String
  | .opening (.remembered name) => name
  | _ => none

/-- The names that a written pattern gives to its groups, in order. -/
def groupNames (text : String) : Except Fault (List String) :=
  (Lexeme.read text.toList).map fun lexemes => lexemes.filterMap Lexeme.groupName?

theorem Lexeme.named_of_groupName?_eq_none {lexeme : Lexeme} (h : lexeme.groupName? = none) :
    lexeme.Named fun _ => False := by
  cases lexeme with
  | opening kind =>
    cases kind with
    | plain => trivial
    | remembered name =>
      have hname : name = none := h
      subst hname
      trivial
  | char | set | start | finish | closing | bar | times => trivial

theorem unnamed_of_groupNames {text : String} {lexemes : List Lexeme}
    (hread : Lexeme.read text.toList = .ok lexemes) (h : groupNames text = .ok []) :
    ∀ lexeme ∈ lexemes, lexeme.Named fun _ => False := by
  unfold groupNames at h
  rw [hread] at h
  have hnone : lexemes.filterMap Lexeme.groupName? = [] := Except.ok.inj h
  intro lexeme hlexeme
  exact Lexeme.named_of_groupName?_eq_none (List.filterMap_eq_nil_iff.mp hnone lexeme hlexeme)

end TreeQuery.Pattern

namespace TreeQuery.Scanner

open Pattern

/-! ### Fragments as branches -/

/-- A fragment spells a branch, which goes into the group of its rule. -/
structure Spells (fragment : Rule × String) (b : Branch) : Prop where
  name : b.name = fragment.1.groupName
  read : Lexeme.read fragment.2.toList = .ok b.lexemes

theorem exists_spells {fragment : Rule × String} (hpattern : ∃ p, ofString fragment.2 = .ok p)
    (hnames : groupNames fragment.2 = .ok []) : ∃ b, Spells fragment b := by
  obtain ⟨p, hp⟩ := hpattern
  rw [ofString_eq] at hp
  unfold part at hp
  cases hread : Lexeme.read fragment.2.toList with
  | error fault =>
    rw [hread] at hp
    cases hp
  | ok lexemes =>
    rw [hread] at hp
    cases hpart : partOf lexemes with
    | error fault =>
      simp only [Except.bind, hpart] at hp
      cases hp
    | ok q =>
      have hunnamed := unnamed_of_groupNames hread hnames
      exact ⟨⟨fragment.1.groupName, lexemes, q, hunnamed, hpart⟩, rfl, hread⟩

theorem exists_branches {fragments : List (Rule × String)}
    (hpatterns : ∀ f ∈ fragments, ∃ p, ofString f.2 = .ok p)
    (hnames : ∀ f ∈ fragments, groupNames f.2 = .ok []) :
    ∃ bs, List.Forall₂ Spells fragments bs := by
  induction fragments with
  | nil => exact ⟨[], .nil⟩
  | cons f fragments ih =>
    obtain ⟨hpattern, hpatterns⟩ := List.forall_mem_cons.mp hpatterns
    obtain ⟨hname, hnames⟩ := List.forall_mem_cons.mp hnames
    obtain ⟨b, hb⟩ := exists_spells hpattern hname
    obtain ⟨bs, hbs⟩ := ih hpatterns hnames
    exact ⟨b :: bs, .cons hb hbs⟩

theorem isGroupName_groupName (rule : Rule) :
    Lexeme.isGroupName rule.groupName.toList = true := by
  cases rule <;> decide

theorem toList_wrap (fragment : Rule × String) :
    (wrap fragment).toList =
      '(' :: '?' :: 'P' :: '<' ::
        (fragment.1.groupName.toList ++ '>' :: (fragment.2.toList ++ [')'])) := by
  unfold wrap
  simp

/-- A fragment in the group of its rule has the signs of its branch, whatever follows. -/
theorem Spells.read_wrap {fragment : Rule × String} {b : Branch} (h : Spells fragment b)
    (more : List Char) :
    Lexeme.read ((wrap fragment).toList ++ more) =
      (Lexeme.read more).map fun others => b.signs ++ others := by
  have hopening : Lexeme.next '(' ('?' :: 'P' :: '<' ::
      (fragment.1.groupName.toList ++ '>' :: (fragment.2.toList ++ ')' :: more))) =
      .ok (.opening (.remembered (some b.name)), fragment.2.toList ++ ')' :: more) := by
    rw [h.name]
    show Lexeme.groupName _ = _
    rw [Lexeme.groupName_append (isGroupName_groupName fragment.1), String.ofList_toList]
  rw [toList_wrap]
  simp only [List.cons_append, List.append_assoc, List.nil_append]
  -- the fragment stands in front of the parenthesis that closes the group of its rule
  rw [Lexeme.read_cons hopening, Lexeme.read_append h.read]
  unfold Branch.signs
  cases Lexeme.read more with
  | error fault => rfl
  | ok others => simp [Except.map]

theorem toList_join_cons (f g : Rule × String) (fragments : List (Rule × String)) :
    (join (f :: g :: fragments)).toList =
      (wrap f).toList ++ '|' :: (join (g :: fragments)).toList := by
  unfold join
  simp [String.toList_intercalate, List.intercalate]

/-- The joined text has the signs of the branches, divided by bars. -/
theorem read_join {fragments : List (Rule × String)} {bs : List Branch}
    (h : List.Forall₂ Spells fragments bs) :
    Lexeme.read (join fragments).toList = .ok (Branch.signsOf bs) := by
  -- by induction on the fragments: a bar stands between a fragment and those behind it
  induction h with
  | nil => rfl
  | @cons f b fragments bs hf hrest ih =>
    cases hrest with
    | nil =>
      have hwrap := hf.read_wrap []
      rw [List.append_nil, Lexeme.read_nil] at hwrap
      have hjoin : join [f] = wrap f := by
        simp [join]
      rw [hjoin, hwrap]
      simp [Except.map, Branch.signsOf]
    | cons hg hrest =>
      have hbar : ∀ cs, Lexeme.next '|' cs = .ok (.bar, cs) := fun _ => rfl
      rw [toList_join_cons, hf.read_wrap, Lexeme.read_cons (hbar _), ih]
      rfl

/-! ### The joined pattern -/

/-- The group of a rule around the part that its fragment spells. -/
def groupOf (fragment : Rule × String) : Except Pattern.Fault Part :=
  (part fragment.2).map fun p => p.group fragment.1.groupName

/-- The choice between the groups of the rules, in order. -/
def joined (fragments : List (Rule × String)) : Except Pattern.Fault Part :=
  (fragments.mapM groupOf).map fun groups =>
    ⟨firstOf (groups.map (·.pattern)), Part.depthOver groups⟩

theorem Spells.groupOf {fragment : Rule × String} {b : Branch} (h : Spells fragment b) :
    groupOf fragment = .ok b.group := by
  unfold Scanner.groupOf part
  rw [h.read]
  simp only [Except.bind, b.spells, Except.map]
  rw [← h.name]
  rfl

theorem joined_of_spells {fragments : List (Rule × String)} {bs : List Branch}
    (h : List.Forall₂ Spells fragments bs) : joined fragments = .ok (Branch.choice bs) := by
  have hgroups : fragments.mapM groupOf = .ok (bs.map Branch.group) := by
    induction h with
    | nil => rfl
    | cons hf _ ih =>
      rw [List.mapM_cons, hf.groupOf, ih]
      rfl
  unfold joined Branch.choice
  rw [hgroups]
  simp only [Except.map, List.map_map]
  rfl

theorem names_of_spells {fragments : List (Rule × String)} {bs : List Branch}
    (h : List.Forall₂ Spells fragments bs) :
    bs.map Branch.name = (fragments.map (·.1)).map Rule.groupName := by
  induction h with
  | nil => rfl
  | cons hf _ ih => rw [List.map_cons, List.map_cons, List.map_cons, hf.name, ih]

/-- **The joined pattern**: the joined text spells the choice between the groups of the rules. -/
theorem part_join {fragments : List (Rule × String)} {bs : List Branch}
    (h : List.Forall₂ Spells fragments bs) (hrules : (fragments.map (·.1)).Nodup) :
    part (join fragments) = .ok (Branch.choice bs) := by
  have hnodup : (bs.map Branch.name).Nodup := by
    rw [names_of_spells h]
    exact List.Nodup.map (fun _ _ => Rule.groupName_injective) hrules
  unfold part
  rw [read_join h]
  exact Branch.partOf_signsOf hnodup

end TreeQuery.Scanner
