import Mathlib.Order.WellFounded
import TreeQuery.Proofs.Grammar.Standard
import TreeQuery.Proofs.Grammar.Trials
import TreeQuery.Proofs.Template.Ordered

/-! # Building — the templates that count, and the fault that is told

    Templates are given one call at a time, in any order and to the same name or rule as often as
    one likes. What is built of them is all or nothing: a grammar in which every rule has its
    text, or one fault.

    This file defines:
    - `Templates.Call`, `Templates.History`: calls that give templates, made on top of no
      templates or of the standard ones
    - `Templates.History.definition?`, `Templates.History.rule?`: the last template that a name or
      a rule was given
    - `Grammar.expandedRule`: what the template of one rule comes to
    - `Grammar.Makes`, `Grammar.Fails`: the templates that make a grammar, and the fault of those
      that make none

    Some grammar or some fault there always is (`makes_or_fails`), and building arrives at it
    (`outcome_build_of_makes`, `outcome_build_of_fails`). So both are told apart exactly, and no
    run of the building has to be followed backwards.
-/

namespace TreeQuery

namespace Templates

/-! ### Calls -/

/-- A call that gives a template. -/
inductive Call where
  /-- To a named fragment. -/
  | define (name template : String)
  /-- To a rule. -/
  | setRule (rule : Rule) (template : String)
deriving DecidableEq, Repr

/-- The template that a call gives to a name. -/
def Call.definition? (name : String) : Call → Option String
  | .define other template => if other = name then some template else none
  | .setRule _ _ => none

/-- The template that a call gives to a rule. -/
def Call.rule? (rule : Rule) : Call → Option String
  | .define _ _ => none
  | .setRule other template => if other = rule then some template else none

/-- Makes a call. -/
def call (t : Templates) : Call → Templates
  | .define name template => t.define name template
  | .setRule rule template => t.setRule rule template

/-- Makes calls, one after another. -/
def run (t : Templates) (calls : List Call) : Templates := calls.foldl call t

/-- The last template that one of the calls gives. -/
def lastGiven? (given? : Call → Option String) (calls : List Call) : Option String :=
  calls.reverse.findSome? given?

theorem lastGiven?_cons (given? : Call → Option String) (c : Call) (calls : List Call) :
    lastGiven? given? (c :: calls) = (lastGiven? given? calls).or (given? c) := by
  unfold lastGiven?
  rw [List.reverse_cons, List.findSome?_append]
  cases hgiven : given? c <;> simp [hgiven]

/-! ### One call -/

theorem find?_call (t : Templates) (c : Call) (name : String) :
    (t.call c).definitions.find? name = (c.definition? name).or (t.definitions.find? name) := by
  cases c with
  | define other template =>
    by_cases heq : other = name
    · subst heq
      simp [call, define, Call.definition?]
    · simp [call, define, Call.definition?, heq,
        Definitions.find?_insert_of_ne t.definitions template (Ne.symm heq)]
  | setRule rule template => rfl

theorem rules_call (t : Templates) (c : Call) (rule : Rule) :
    (t.call c).rules rule = (c.rule? rule).or (t.rules rule) := by
  cases c with
  | define name template => rfl
  | setRule other template =>
    by_cases heq : other = rule
    · subst heq
      simp [call, Call.rule?]
    · simp [call, Call.rule?, heq, rules_setRule_of_ne t template (Ne.symm heq)]

theorem ordered_call {t : Templates} (h : t.definitions.Ordered) (c : Call) :
    (t.call c).definitions.Ordered := by
  cases c with
  | define name template => exact h.insert name template
  | setRule rule template => exact h

/-! ### All calls -/

/-- What a call replaces or leaves alone is in the end what the last call has made of it. -/
theorem read_run (read : Templates → Option String) {given? : Call → Option String}
    (hcall : ∀ t c, read (t.call c) = (given? c).or (read t)) (t : Templates)
    (calls : List Call) : read (t.run calls) = (lastGiven? given? calls).or (read t) := by
  induction calls generalizing t with
  | nil => rfl
  | cons c calls ih =>
    -- what a later call gives takes the place of what this one gives
    show read ((t.call c).run calls) = _
    rw [ih, hcall, lastGiven?_cons, Option.or_assoc]

theorem ordered_run {t : Templates} (h : t.definitions.Ordered) (calls : List Call) :
    (t.run calls).definitions.Ordered := by
  induction calls generalizing t with
  | nil => exact h
  | cons c calls ih => exact ih (ordered_call h c)

/-- Templates are told by what they say of each name and each rule. -/
theorem ext_of_ordered {t t' : Templates} (h : t.definitions.Ordered)
    (h' : t'.definitions.Ordered)
    (hdefinitions : ∀ name, t.definitions.find? name = t'.definitions.find? name)
    (hrules : ∀ rule, t.rules rule = t'.rules rule) : t = t' := by
  obtain ⟨definitions, rules⟩ := t
  obtain ⟨definitions', rules'⟩ := t'
  congr
  · exact h.ext h' hdefinitions
  · exact funext hrules

/-! ### Histories -/

/-- Calls on top of no templates or of the standard ones. -/
structure History where
  /-- Whether the standard templates are there before the first call. -/
  onStandard : Bool
  calls : List Call
deriving DecidableEq, Repr

/-- The calls that give the standard templates. -/
def standardCalls : List Call :=
  standardDefinitions.map (fun entry => .define entry.1 entry.2) ++
    standardRules.map fun entry => .setRule entry.1 entry.2

theorem run_standardCalls : empty.run standardCalls = standard := by
  unfold run standardCalls standard
  rw [List.foldl_append, List.foldl_map, List.foldl_map]
  rfl

namespace History

/-- What the calls leave. -/
def templates (h : History) : Templates :=
  (if h.onStandard then standard else empty).run h.calls

/-- Every call, with those that give the standard templates where these are there. -/
def given (h : History) : List Call :=
  (if h.onStandard then standardCalls else []) ++ h.calls

/-- The last template that a name was given. -/
def definition? (h : History) (name : String) : Option String :=
  lastGiven? (Call.definition? name) h.given

/-- The last template that a rule was given. -/
def rule? (h : History) (rule : Rule) : Option String :=
  lastGiven? (Call.rule? rule) h.given

theorem templates_eq_run (h : History) : h.templates = empty.run h.given := by
  unfold templates given
  cases h.onStandard with
  | false => rfl
  | true => rw [if_pos rfl, if_pos rfl, ← run_standardCalls, run, run, run, List.foldl_append]

theorem find?_templates (h : History) (name : String) :
    h.templates.definitions.find? name = h.definition? name := by
  rw [templates_eq_run]
  have hrun := read_run (fun t => t.definitions.find? name) (fun t c => find?_call t c name) empty
    h.given
  exact hrun.trans (Option.or_none ..)

theorem rules_templates (h : History) (rule : Rule) : h.templates.rules rule = h.rule? rule := by
  rw [templates_eq_run]
  have hrun := read_run (fun t => t.rules rule) (fun t c => rules_call t c rule) empty h.given
  exact hrun.trans (Option.or_none ..)

theorem ordered_templates (h : History) : h.templates.definitions.Ordered := by
  rw [templates_eq_run]
  exact ordered_run Definitions.ordered_empty h.given

/-- Only the last templates count, and no order of the calls. -/
theorem templates_eq_of_last {h h' : History}
    (hdefinitions : ∀ name, h.definition? name = h'.definition? name)
    (hrules : ∀ rule, h.rule? rule = h'.rule? rule) : h.templates = h'.templates := by
  refine ext_of_ordered h.ordered_templates h'.ordered_templates ?_ ?_
  · intro name
    rw [find?_templates, find?_templates, hdefinitions]
  · intro rule
    rw [rules_templates, rules_templates, hrules]

end History

end Templates

namespace Grammar

variable {room : Pattern.Room} {t : Templates} {rules : Rule → Option String}
  {definitions : Definitions} {text : Rule → String} {fault : Fault}

/-! ### The texts of the rules -/

/-- What the template of a rule comes to. -/
def expandedRule (rules : Rule → Option String) (definitions : Definitions) (rule : Rule) :
    Except Fault String :=
  match rules rule with
  | none => .error (.missingRule rule)
  | some template => (Template.expand rule.label template definitions).outcome

/-- The first rule is expanded, and then the others. -/
theorem outcome_expandRules_cons (rule : Rule) (others : List Rule) :
    (expandRules rules definitions (rule :: others)).outcome =
      (expandedRule rules definitions rule).bind fun text =>
        (expandRules rules definitions others).outcome.map ((rule, text) :: ·) := by
  rw [expandRules, expandedRule]
  cases rules rule with
  | none => rfl
  | some template =>
    simp only [Journal.outcome_bind, Journal.outcome_note, Journal.outcome_pure]
    rfl

theorem outcome_expandRules_of_texts {l : List Rule}
    (h : ∀ rule ∈ l, expandedRule rules definitions rule = .ok (text rule)) :
    (expandRules rules definitions l).outcome = .ok (l.map fun rule => (rule, text rule)) := by
  induction l with
  | nil => rfl
  | cons rule others ih =>
    obtain ⟨hrule, hothers⟩ := List.forall_mem_cons.mp h
    rw [outcome_expandRules_cons, hrule, ih hothers]
    rfl

/-- The first rule that has no text stops the expansion with its fault. -/
theorem outcome_expandRules_of_fault {before : List Rule} {rule : Rule} (after : List Rule)
    (hbefore : ∀ earlier ∈ before, ∃ text, expandedRule rules definitions earlier = .ok text)
    (hrule : expandedRule rules definitions rule = .error fault) :
    (expandRules rules definitions (before ++ rule :: after)).outcome = .error fault := by
  induction before with
  | nil =>
    rw [List.nil_append, outcome_expandRules_cons, hrule]
    rfl
  | cons earlier before ih =>
    obtain ⟨⟨text, hearlier⟩, hothers⟩ := List.forall_mem_cons.mp hbefore
    rw [List.cons_append, outcome_expandRules_cons, hearlier, ih hothers]
    rfl

/-! ### What templates come to -/

/-- The pattern that texts of the rules are joined into, as a text. -/
def alternation (text : Rule → String) : String :=
  "|".intercalate (Rule.all.map fun rule => "(?P<" ++ rule.groupName ++ ">" ++ text rule ++ ")")

theorem join_texts (text : Rule → String) :
    Scanner.join (Rule.all.map fun rule => (rule, text rule)) = alternation text := by
  unfold Scanner.join alternation
  rw [List.map_map]
  rfl

/-- Templates make a grammar: the definitions expand, every rule has a template that expands
    against them, and the texts joined compile to a pattern. -/
structure Makes (room : Pattern.Room) (t : Templates) (definitions : Definitions)
    (text : Rule → String) (pattern : Pattern) : Prop where
  hdefinitions : t.definitions.expand.outcome = .ok definitions
  htexts : ∀ rule, expandedRule t.rules definitions rule = .ok (text rule)
  hpattern : Pattern.compile room (alternation text) = .ok pattern

/-- The fault of templates that make no grammar. -/
inductive Fails (room : Pattern.Room) (t : Templates) : Fault → Prop where
  /-- The definitions do not expand. -/
  | definitions {fault : Fault} (hdefinitions : t.definitions.expand.outcome = .error fault) :
      Fails room t fault
  /-- The definitions expand, and this is the first rule in the order of the rules that has no
      template or whose template does not expand. -/
  | rule {definitions : Definitions} {rule : Rule} {fault : Fault}
      (hdefinitions : t.definitions.expand.outcome = .ok definitions)
      (hbefore : ∀ earlier ∈ rule.below, ∃ text,
        expandedRule t.rules definitions earlier = .ok text)
      (hrule : expandedRule t.rules definitions rule = .error fault) : Fails room t fault
  /-- Everything expands, and the texts joined do not compile. -/
  | pattern {definitions : Definitions} {text : Rule → String} {fault : Pattern.Fault}
      (hdefinitions : t.definitions.expand.outcome = .ok definitions)
      (htexts : ∀ rule, expandedRule t.rules definitions rule = .ok (text rule))
      (hpattern : Pattern.compile room (alternation text) = .error fault) :
      Fails room t (.pattern fault)

theorem mem_below_iff {earlier rule : Rule} :
    earlier ∈ rule.below ↔ earlier.index < rule.index := by
  simp [Rule.below, Rule.mem_all]

/-- Where not every rule has a text, there is a first one without. -/
theorem exists_first_fault
    (h : ¬∀ rule, ∃ text, expandedRule rules definitions rule = .ok text) :
    ∃ rule fault, (∀ earlier ∈ rule.below, ∃ text,
        expandedRule rules definitions earlier = .ok text) ∧
      expandedRule rules definitions rule = .error fault := by
  obtain ⟨failing, hfailing⟩ := not_forall.mp h
  -- of all rules without a text, the one with the smallest place
  obtain ⟨rule, hrule, hfirst⟩ := (InvImage.wf Rule.index Nat.lt_wfRel.wf).has_min
    {rule | ¬∃ text, expandedRule rules definitions rule = .ok text} ⟨failing, hfailing⟩
  have hbefore : ∀ earlier ∈ rule.below, ∃ text,
      expandedRule rules definitions earlier = .ok text := by
    intro earlier hearlier
    by_contra hfails
    exact hfirst earlier hfails (mem_below_iff.mp hearlier)
  cases hexpanded : expandedRule rules definitions rule with
  | ok text => exact absurd ⟨text, hexpanded⟩ hrule
  | error fault => exact ⟨rule, fault, hbefore, hexpanded⟩

/-- Templates make a grammar or have a fault. -/
theorem makes_or_fails (room : Pattern.Room) (t : Templates) :
    (∃ definitions text pattern, Makes room t definitions text pattern) ∨
      ∃ fault, Fails room t fault := by
  cases hdefinitions : t.definitions.expand.outcome with
  | error fault => exact .inr ⟨fault, .definitions hdefinitions⟩
  | ok definitions =>
    by_cases htexts : ∀ rule, ∃ text, expandedRule t.rules definitions rule = .ok text
    · choose text htext using htexts
      cases hpattern : Pattern.compile room (alternation text) with
      | error fault => exact .inr ⟨.pattern fault, .pattern hdefinitions htext hpattern⟩
      | ok pattern => exact .inl ⟨definitions, text, pattern, hdefinitions, htext, hpattern⟩
    · obtain ⟨rule, fault, hbefore, hrule⟩ := exists_first_fault htexts
      exact .inr ⟨fault, .rule hdefinitions hbefore hrule⟩

/-! ### Building -/

/-- The grammar of expanded definitions, texts of the rules and their pattern. -/
def ofTexts (definitions : Definitions) (text : Rule → String) (pattern : Pattern) : Grammar :=
  ⟨definitions, Rule.all.map fun rule => (rule, text rule), ⟨alternation text, pattern, Rule.all⟩⟩

theorem fragment?_ofTexts (definitions : Definitions) (text : Rule → String) (pattern : Pattern)
    (rule : Rule) : (ofTexts definitions text pattern).fragment? rule = some (text rule) := by
  cases rule <;> rfl

theorem outcome_build_of_makes {pattern : Pattern} (h : Makes room t definitions text pattern) :
    (build room t).outcome = .ok (ofTexts definitions text pattern) := by
  have hfragments := outcome_expandRules_of_texts (l := Rule.all) fun rule _ => h.htexts rule
  have hscanner := Standard.outcome_ofFragments ((join_texts text).symm ▸ h.hpattern)
  rw [Standard.outcome_build h.hdefinitions hfragments hscanner, join_texts]
  rfl

theorem outcome_build_of_fails (h : Fails room t fault) :
    (build room t).outcome = .error fault := by
  unfold build
  simp only [Journal.outcome_bind]
  cases h with
  | definitions hdefinitions =>
    rw [hdefinitions]
    rfl
  | @rule definitions rule fault hdefinitions hbefore hrule =>
    -- the rules that the expansion comes to before this one all have texts
    obtain ⟨after, hall⟩ : ∃ after, Rule.all = rule.below ++ rule :: after := by
      cases rule <;> exact ⟨_, rfl⟩
    have hfragments := outcome_expandRules_of_fault after hbefore hrule
    rw [← hall] at hfragments
    simp only [hdefinitions, Except.bind, hfragments]
  | @pattern definitions text fault hdefinitions htexts hpattern =>
    have hfragments := outcome_expandRules_of_texts (l := Rule.all) fun rule _ => htexts rule
    have hscanner := Scanner.outcome_ofFragments_of_error ((join_texts text).symm ▸ hpattern)
    simp only [hdefinitions, Except.bind, hfragments, hscanner]

theorem outcome_build_eq_ok_iff {g : Grammar} :
    (build room t).outcome = .ok g ↔ ∃ definitions text pattern,
      Makes room t definitions text pattern ∧ g = ofTexts definitions text pattern := by
  constructor
  · intro hbuild
    obtain ⟨definitions, text, pattern, hmakes⟩ | ⟨fault, hfails⟩ := makes_or_fails room t
    · rw [outcome_build_of_makes hmakes] at hbuild
      exact ⟨definitions, text, pattern, hmakes, (Except.ok.inj hbuild).symm⟩
    · rw [outcome_build_of_fails hfails] at hbuild
      cases hbuild
  · rintro ⟨definitions, text, pattern, hmakes, rfl⟩
    exact outcome_build_of_makes hmakes

theorem outcome_build_eq_error_iff :
    (build room t).outcome = .error fault ↔ Fails room t fault := by
  constructor
  · intro hbuild
    obtain ⟨definitions, text, pattern, hmakes⟩ | ⟨other, hfails⟩ := makes_or_fails room t
    · rw [outcome_build_of_makes hmakes] at hbuild
      cases hbuild
    · rw [outcome_build_of_fails hfails] at hbuild
      cases hbuild
      exact hfails
  · exact outcome_build_of_fails

/-- **Main theorem**: after calls on top of no templates or of the standard ones, every name and
    every rule has the last template it was given, and nothing else about the calls counts.
    Building gives a grammar exactly if the definitions expand, every rule has a template that
    expands against them, and the texts joined compile; the grammar then has the texts in the
    order of the rules and the scanner of their alternation. Otherwise it tells the fault of
    the definitions before that of a rule, that of the first faulty rule in the order of the
    rules, and that of the pattern last. -/
theorem build_is_all_or_nothing (room : Pattern.Room) :
    (∀ h : Templates.History,
      (∀ name, h.templates.definitions.find? name = h.definition? name) ∧
      (∀ rule, h.templates.rules rule = h.rule? rule)) ∧
    (∀ h h' : Templates.History,
      (∀ name, h.definition? name = h'.definition? name) →
      (∀ rule, h.rule? rule = h'.rule? rule) →
      build room h.templates = build room h'.templates) ∧
    (∀ (h : Templates.History) (g : Grammar),
      (build room h.templates).outcome = .ok g ↔ ∃ definitions text pattern,
        Makes room h.templates definitions text pattern ∧
        g = ⟨definitions, Rule.all.map fun rule => (rule, text rule),
          ⟨alternation text, pattern, Rule.all⟩⟩ ∧
        ∀ rule, g.fragment? rule = some (text rule)) ∧
    (∀ (h : Templates.History) (fault : Fault),
      (build room h.templates).outcome = .error fault ↔ Fails room h.templates fault) := by
  refine ⟨?_, ?_, ?_, ?_⟩
  · exact fun h => ⟨h.find?_templates, h.rules_templates⟩
  · intro h h' hdefinitions hrules
    rw [Templates.History.templates_eq_of_last hdefinitions hrules]
  · intro h g
    rw [outcome_build_eq_ok_iff]
    constructor
    · rintro ⟨definitions, text, pattern, hmakes, rfl⟩
      exact ⟨definitions, text, pattern, hmakes, rfl, fragment?_ofTexts definitions text pattern⟩
    · rintro ⟨definitions, text, pattern, hmakes, hg, -⟩
      exact ⟨definitions, text, pattern, hmakes, hg⟩
  · exact fun h fault => outcome_build_eq_error_iff

/-- A rule given before the name it refers to, and the name given twice. -/
theorem build_reordered :
    build .unlimited (Templates.History.templates
      ⟨true, [.setRule .id "##\x7btail\x7d", .define "tail" "x", .define "tail" "[a-z]+"]⟩) =
    build .unlimited (Templates.History.templates
      ⟨true, [.define "tail" "[a-z]+", .setRule .id "#", .setRule .id "##\x7btail\x7d"]⟩) := by
  refine (build_is_all_or_nothing .unlimited).2.1 _ _ ?_ ?_
  · intro name
    simp only [Templates.History.definition?, Templates.History.given, Templates.lastGiven?,
      List.reverse_append, List.findSome?_append]
    congr 1
    by_cases hname : "tail" = name <;>
      simp [List.findSome?_cons, Templates.Call.definition?, hname]
  · intro rule
    simp only [Templates.History.rule?, Templates.History.given, Templates.lastGiven?,
      List.reverse_append, List.findSome?_append]
    congr 1
    by_cases hrule : Rule.id = rule <;>
      simp [List.findSome?_cons, Templates.Call.rule?, hrule]

end Grammar

end TreeQuery
