import TreeQuery.Proofs.Program.Checks

/-! # Status — a run succeeds as a whole or fails as a whole

    The status of a run is decided in two steps. First the variables are read: one
    that holds a value it cannot have ends the run with status 2, also where an
    option overrides it. Then the action is performed: it has passed all its checks
    and the status is 0, or the first check that it has not passed is reported and
    the status is 1. Nothing is written unless the status is 0, and then the whole
    of the output is.

    * **Variables**: when they can be read, and whether they ask for strict reading.
    * **Unset variables**: a variable whose value is no text is none at all.
    * **Runs**: status, output and report of a run in terms of the checks.
-/

namespace TreeQuery.Program

/-! ### Variables -/

/-- The words that name a level. -/
def levelWords : List String := ["trace", "debug", "info", "warn", "warning", "error"]

/-- The words that turn something on. -/
def onWords : List String := ["1", "true", "yes", "on"]

/-- The words that turn something off. -/
def offWords : List String := ["0", "false", "no", "off"]

variable (value? : String → Option String)

/-- One of the two variables holds a value that it cannot have. -/
def Misconfigured : Prop :=
  (∃ text, value? Settings.levelVariable = some text ∧ lowerCase text ∉ levelWords) ∨
    ∃ text, value? Settings.strictVariable = some text ∧
      lowerCase (Text.trimSpace text) ∉ onWords ++ offWords

/-- The variable for strict reading is turned on. -/
def TurnedOn : Prop :=
  ∃ text, value? Settings.strictVariable = some text ∧ lowerCase (Text.trimSpace text) ∈ onWords

theorem ofWord?_eq_none_iff {word : String} : Level.ofWord? word = none ↔ word ∉ levelWords := by
  unfold Level.ofWord?
  split <;> simp_all [levelWords]

theorem switch?_eq_none_iff {word : String} : switch? word = none ↔ word ∉ onWords ++ offWords := by
  unfold switch?
  split <;> simp_all [onWords, offWords]

theorem switch?_eq_some_true_iff {word : String} : switch? word = some true ↔ word ∈ onWords := by
  unfold switch?
  split <;> simp_all [onWords]

variable {value?}

theorem ofVariables_eq (value? : String → Option String) :
    Settings.ofVariables value? =
      ((value? Settings.levelVariable).elim (.ok .warn) Settings.readLevel).bind fun level =>
        ((value? Settings.strictVariable).elim (.ok false)
          (Settings.readSwitch Settings.strictVariable)).bind fun strict =>
            .ok ⟨level, strict⟩ := by
  unfold Settings.ofVariables
  cases value? Settings.levelVariable <;> cases value? Settings.strictVariable <;>
    (simp only [Option.elim_none, Option.elim_some]; rfl)

theorem readLevel_fails_iff {text : String} :
    (∃ fault, Settings.readLevel text = .error fault) ↔ lowerCase text ∉ levelWords := by
  unfold Settings.readLevel
  rw [← ofWord?_eq_none_iff]
  cases Level.ofWord? (lowerCase text) <;> simp

theorem readSwitch_fails_iff {setting text : String} :
    (∃ fault, Settings.readSwitch setting text = .error fault) ↔
      lowerCase (Text.trimSpace text) ∉ onWords ++ offWords := by
  unfold Settings.readSwitch
  rw [← switch?_eq_none_iff]
  cases switch? (lowerCase (Text.trimSpace text)) <;> simp

theorem readSwitch_eq_ok_true_iff {setting text : String} :
    Settings.readSwitch setting text = .ok true ↔
      lowerCase (Text.trimSpace text) ∈ onWords := by
  unfold Settings.readSwitch
  rw [← switch?_eq_some_true_iff]
  cases switch? (lowerCase (Text.trimSpace text)) <;> simp

section

variable {α β : Type} {x : Except Settings.Fault α} {next : α → Except Settings.Fault β}
  {fault : Settings.Fault}

theorem bind_eq_ok_iff {b : β} : x.bind next = .ok b ↔ ∃ a, x = .ok a ∧ next a = .ok b := by
  cases x <;> simp [Except.bind]

theorem bind_eq_error_iff :
    x.bind next = .error fault ↔ x = .error fault ∨ ∃ a, x = .ok a ∧ next a = .error fault := by
  cases x <;> simp [Except.bind]

theorem elim_eq_error_iff {text? : Option String} {unset : α}
    {read : String → Except Settings.Fault α} :
    text?.elim (.ok unset) read = .error fault ↔
      ∃ text, text? = some text ∧ read text = .error fault := by
  cases text? <;> simp

end

/-- No settings are made exactly if a variable holds a value that it cannot have. -/
theorem ofVariables_fails_iff :
    (∃ fault, Settings.ofVariables value? = .error fault) ↔ Misconfigured value? := by
  rw [ofVariables_eq]
  constructor
  · rintro ⟨fault, h⟩
    rcases bind_eq_error_iff.mp h with hlevel | ⟨_, _, hnext⟩
    · obtain ⟨text, htext, hread⟩ := elim_eq_error_iff.mp hlevel
      exact .inl ⟨text, htext, readLevel_fails_iff.mp ⟨fault, hread⟩⟩
    · rcases bind_eq_error_iff.mp hnext with hstrict | ⟨_, _, hmade⟩
      · obtain ⟨text, htext, hread⟩ := elim_eq_error_iff.mp hstrict
        exact .inr ⟨text, htext, readSwitch_fails_iff.mp ⟨fault, hread⟩⟩
      · cases hmade
  · rintro (⟨text, htext, hbad⟩ | ⟨text, htext, hbad⟩)
    · obtain ⟨fault, hread⟩ := readLevel_fails_iff.mpr hbad
      rw [elim_eq_error_iff.mpr ⟨text, htext, hread⟩]
      exact ⟨fault, rfl⟩
    · obtain ⟨fault, hread⟩ := readSwitch_fails_iff.mpr hbad
      rw [elim_eq_error_iff.mpr ⟨text, htext, hread⟩]
      -- a wrong level is complained of before a wrong switch
      cases (value? Settings.levelVariable).elim (.ok .warn) Settings.readLevel with
      | error wrong => exact ⟨wrong, rfl⟩
      | ok level => exact ⟨fault, rfl⟩

theorem strict_iff_turnedOn {settings : Settings}
    (h : Settings.ofVariables value? = .ok settings) :
    settings.strict = true ↔ TurnedOn value? := by
  rw [ofVariables_eq] at h
  obtain ⟨level, -, hnext⟩ := bind_eq_ok_iff.mp h
  obtain ⟨on, hon, hmade⟩ := bind_eq_ok_iff.mp hnext
  obtain rfl := Except.ok.inj hmade
  show on = true ↔ _
  unfold TurnedOn
  cases hset : value? Settings.strictVariable with
  | none =>
    rw [hset] at hon
    obtain rfl : false = on := Except.ok.inj hon
    simp
  | some text =>
    rw [hset, Option.elim_some] at hon
    constructor
    · rintro rfl
      exact ⟨text, rfl, readSwitch_eq_ok_true_iff.mp hon⟩
    · rintro ⟨text', htext, hword⟩
      obtain rfl := Option.some.inj htext
      rw [readSwitch_eq_ok_true_iff.mpr hword] at hon
      exact (Except.ok.inj hon).symm

/-- Overridden settings ask for strict reading if the option does or the settings do. -/
theorem mode_override_eq_strict_iff (settings : Settings) (level : Option Level) (strict : Bool) :
    (settings.override level (if strict then some true else none)).mode = .strict ↔
      strict = true ∨ settings.strict = true := by
  unfold Settings.mode Settings.override
  cases strict <;> cases settings.strict <;> simp

/-! ### Unset variables -/

theorem World.value?_unset {w : World} {name : String} (h : w.value? name = none) :
    (w.unset name).value? = w.value? := by
  funext other
  by_cases hother : other = name
  · subst hother
    rw [h]
    simp [World.value?, World.unset]
  · simp [World.value?, World.unset, hother]

/-- **Unset variables**: a run does not tell a variable without a value from one that is not set. -/
theorem run_unset {w : World} {name : String} (h : w.value? name = none) :
    run (w.unset name) = run w := by
  unfold run
  rw [World.value?_unset h]
  rfl

/-! ### Runs -/

section

variable {w : World} {level : Option Level} {strict : Bool} {action : Action}
  (h : Request.ofWords? w.words = some (.run level strict action))

include h

theorem run_of_misconfigured {fault : Settings.Fault}
    (hvariables : Settings.ofVariables w.value? = .error fault) :
    run w = ⟨2, "", [misconfiguration fault]⟩ := by
  unfold run
  rw [h, hvariables]

/-- Where the variables can be read, the action is performed with the settings as the options
    override them. -/
theorem run_of_settings {settings : Settings}
    (hvariables : Settings.ofVariables w.value? = .ok settings) :
    run w = finish (settings.override level (if strict then some true else none)).level action
      (execute (settings.override level (if strict then some true else none)).mode
        w.files action) := by
  unfold run
  rw [h, hvariables]

end

theorem finish_of_ok {action : Action} {journal : Journal Command.Fault (List Command.Line)}
    {lines : List Command.Line} (h : journal.outcome = .ok lines) {level : Level} :
    finish level action journal =
      ⟨0, String.join (lines.map fun l => l.text ++ "\n"),
        warnings level action journal.events⟩ := by
  unfold finish
  rw [h]

theorem finish_of_error {action : Action} {journal : Journal Command.Fault (List Command.Line)}
    {fault : Command.Fault} (h : journal.outcome = .error fault) {level : Level} :
    finish level action journal =
      ⟨1, "", warnings level action journal.events ++ [failure fault.chain]⟩ := by
  unfold finish
  rw [h]

/-- A run succeeds as a whole, with all lines of its action, or fails as a whole, with nothing
    written and the fault reported last. -/
theorem finish_of_ends {engine : Engine} {files : Command.Files} {action : Action}
    {journal : Journal Command.Fault (List Command.Line)} (level : Level)
    (h : Ends engine files action journal.outcome) :
    ((finish level action journal).status = 0 ∧
        (∀ check ∈ action.checks, check.Passed engine files) ∧
        ∃ lines, action.Writes engine files lines ∧
          (finish level action journal).output = String.join (lines.map (· ++ "\n"))) ∨
      ((finish level action journal).status = 1 ∧ (finish level action journal).output = "" ∧
        ∃ fault, FailsFirst engine files action.checks fault ∧
          (finish level action journal).records.getLast? = some (failure fault.chain)) := by
  cases houtcome : journal.outcome with
  | ok lines =>
    rw [finish_of_ok houtcome]
    rw [houtcome] at h
    cases h with
    | writes hpassed hwrites =>
      refine .inl ⟨rfl, hpassed, _, hwrites, ?_⟩
      rw [List.map_map]
      rfl
  | error fault =>
    rw [finish_of_error houtcome]
    rw [houtcome] at h
    cases h with
    | fails hfails => exact .inr ⟨rfl, rfl, fault, hfails, List.getLast?_concat⟩

/-- **Main theorem**: the status of a run is 2 exactly if a variable holds a value that it cannot
    have, whatever the options say. Otherwise it is 0 exactly if the action passes all its checks,
    and else 1, and what is reported last is a fault of the first check that is not passed. Nothing
    is written unless the status is 0, and then the output is all lines of the action, each with
    its line feed. The engine has the standard grammar, and it is strict exactly if the option or
    the variable asks for that. A variable whose value is no text is as good as unset. -/
theorem status_and_output (w : World) {level : Option Level} {strict : Bool} {action : Action}
    (h : Request.ofWords? w.words = some (.run level strict action)) :
    (∀ name raw, w.environment name = some raw → raw.text? = none → run w = run (w.unset name)) ∧
    ((run w).status = 2 ↔ Misconfigured w.value?) ∧
    ((run w).status ≠ 0 → (run w).output = "") ∧
    (¬Misconfigured w.value? →
      ∃ engine : Engine, Grammar.standard.outcome = .ok engine.grammar ∧
        (engine.mode = .strict ↔ strict = true ∨ TurnedOn w.value?) ∧
        ((run w).status = 0 ↔ ∀ check ∈ action.checks, check.Passed engine w.files) ∧
        ((run w).status = 0 → ∃ lines, action.Writes engine w.files lines ∧
          (run w).output = String.join (lines.map (· ++ "\n"))) ∧
        ((run w).status ≠ 0 → (run w).status = 1 ∧
          ∃ fault, FailsFirst engine w.files action.checks fault ∧
            (run w).records.getLast? = some (failure fault.chain))) := by
  constructor
  · intro name raw hraw htext
    refine (run_unset ?_).symm
    unfold World.value?
    rw [hraw]
    exact htext
  -- the options come into play only behind the variables, so they cannot mend a wrong one
  cases hvariables : Settings.ofVariables w.value? with
  | error fault =>
    have hbad : Misconfigured w.value? := ofVariables_fails_iff.mp ⟨fault, hvariables⟩
    rw [run_of_misconfigured h hvariables]
    exact ⟨⟨fun _ => hbad, fun _ => rfl⟩, fun _ => rfl, fun hgood => absurd hbad hgood⟩
  | ok settings =>
    have hgood : ¬Misconfigured w.value? := by
      rw [← ofVariables_fails_iff, hvariables]
      rintro ⟨_, hfails⟩
      cases hfails
    obtain ⟨engine, he⟩ := Engine.exists_standard
      (settings.override level (if strict then some true else none)).mode
    obtain ⟨hgrammar, hmode⟩ := Engine.grammar_and_mode_of_standard he
    -- from here on the settings matter only through the mode of the engine
    have hasked : engine.mode = .strict ↔ strict = true ∨ TurnedOn w.value? := by
      rw [hmode, mode_override_eq_strict_iff, strict_iff_turnedOn hvariables]
    rw [run_of_settings h hvariables]
    rcases finish_of_ends _ (ends_execute he action) with
      ⟨hstatus, hpassed, hlines⟩ | ⟨hstatus, houtput, fault, hfails, hlast⟩
    · rw [hstatus]
      exact ⟨⟨nofun, fun hbad => absurd hbad hgood⟩, fun hne => absurd rfl hne, fun _ =>
        ⟨engine, hgrammar, hasked, ⟨fun _ => hpassed, fun _ => rfl⟩, fun _ => hlines,
          fun hne => absurd rfl hne⟩⟩
    · rw [hstatus]
      exact ⟨⟨nofun, fun hbad => absurd hbad hgood⟩, fun _ => houtput, fun _ =>
        ⟨engine, hgrammar, hasked, ⟨nofun, fun hall => absurd hall hfails.not_forall⟩, nofun,
          fun _ => ⟨rfl, fault, hfails, hlast⟩⟩⟩

/-- A list of two items. -/
def menuText : String :=
  "\x7b\x22tag\x22: \x22ul\x22, \x22children\x22: [" ++
    "\x7b\x22tag\x22: \x22li\x22, \x22id\x22: \x22a\x22\x7d, " ++
    "\x7b\x22tag\x22: \x22li\x22\x7d]\x7d"

/-- What a run starts from where there is one file, the list, and the variable for strict reading may
    be set. -/
def worldOf (words : List String) (strict : Option Raw) : World where
  words := words.map Raw.ofString
  environment name := if name = Settings.strictVariable then strict else none
  files := {
    content := fun path =>
      if path = Raw.ofString "menu.json" then .ok (Raw.ofString menuText)
      else .error "No such file or directory (os error 2)"
    refusal := fun _ => "expected value at line 1 column 1" }
  usage _ := "Usage: selq [OPTIONS] <COMMAND>"

/-- A run with an option for strict reading, over a variable that holds no such choice. -/
def overridden : World := worldOf ["--strict", "tokenize", "a"] (some (.ofString "maybe"))

/-- A run that finds the items of the list. -/
def listing : World := worldOf ["search", "--tree", "menu.json", "ul li"] none

/-- A run from a tree that cannot be read, with a selector that cannot be read either. -/
def treeless : World := worldOf ["closest", "--tree", "nav.json", "--from", "a", "--strict", "]"] none

/-- A run over a variable that holds a byte which is in no text. -/
def garbled : World := worldOf ["tokenize", "ul > li"] (some ⟨[0xff]⟩)

theorem not_misconfigured {w : World} (h : ∀ name, w.value? name = none) :
    ¬Misconfigured w.value? := by
  rintro (⟨_, hset, _⟩ | ⟨_, hset, _⟩) <;> rw [h] at hset <;> cases hset

theorem value?_worldOf_none (words : List String) (name : String) :
    (worldOf words none).value? name = none := by
  simp [World.value?, worldOf]

theorem misconfigured_worldOf (words : List String) :
    Misconfigured (worldOf words (some (.ofString "maybe"))).value? := by
  refine .inr ⟨"maybe", ?_, by decide +kernel⟩
  simp [World.value?, worldOf]

theorem tokenize_items {engine : Engine} (hgrammar : Grammar.standard.outcome = .ok engine.grammar) :
    (engine.tokenize "ul li").outcome = .ok [⟨"ul", .name⟩, ⟨"li", .name⟩] := by
  unfold Engine.tokenize
  rw [Journal.outcome_mapFault, Selector.outcome_tokenize hgrammar]
  cases engine.mode <;> decide +kernel

/-- The items are found in the document that the file holds. -/
theorem exists_holds_listing : ∃ d, Holds listing.files (.ofString "menu.json") d ∧
    (Query.answersTo [⟨"ul", .name⟩, ⟨"li", .name⟩] d (some Document.root)).map d.path =
      ["ul > li#a", "ul > li"] := by
  have hpaths : ((ElementSpec.ofString? menuText).map fun spec =>
      (Query.answersTo [⟨"ul", .name⟩, ⟨"li", .name⟩] (.ofSpec spec) (some Document.root)).map
        (Document.ofSpec spec).path) = some ["ul > li#a", "ul > li"] := by decide +kernel
  obtain ⟨spec, hspec, hfound⟩ := Option.map_eq_some_iff.mp hpaths
  exact ⟨.ofSpec spec, ⟨menuText, spec, by decide +kernel, hspec, rfl⟩, hfound⟩

theorem read_treeless : treeless.files.read (.ofString "nav.json") =
    .error "No such file or directory (os error 2)" := by decide +kernel

theorem status_and_output_menu :
    (run overridden).status = 2 ∧ (run overridden).output = "" ∧
      (run listing).status = 0 ∧ (run listing).output = "ul > li#a\nul > li\n" ∧
      (run treeless).status = 1 ∧ (run treeless).output = "" ∧
      (run treeless).records.getLast? = some
        "ERROR selq: failed to read tree file nav.json: No such file or directory (os error 2)" ∧
      run garbled = run (garbled.unset Settings.strictVariable) := by
  have hoverridden : Request.ofWords? overridden.words = some (.run none true (.tokenize "a")) := by
    decide +kernel
  have hlisting : Request.ofWords? listing.words =
      some (.run none false (.search (.ofString "menu.json") "ul li")) := by decide +kernel
  have htreeless : Request.ofWords? treeless.words =
      some (.run none true (.closest (.ofString "nav.json") "a" "]")) := by decide +kernel
  have hgarbled : Request.ofWords? garbled.words = some (.run none false (.tokenize "ul > li")) := by
    decide +kernel
  -- a wrong variable
  obtain ⟨-, hwrong, hempty, -⟩ := status_and_output overridden hoverridden
  have htwo : (run overridden).status = 2 := hwrong.mpr (misconfigured_worldOf _)
  have hnothing : (run overridden).output = "" := hempty (by rw [htwo]; decide)
  -- a tree in which something is found
  obtain ⟨-, -, -, hchecked⟩ := status_and_output listing hlisting
  obtain ⟨engine, hgrammar, -, hpasses, hwrites, -⟩ :=
    hchecked (not_misconfigured (value?_worldOf_none _))
  have htokens := tokenize_items hgrammar
  obtain ⟨d, hd, hpaths⟩ := exists_holds_listing
  have hzero : (run listing).status = 0 := by
    refine hpasses.mpr (List.forall_mem_cons.mpr ⟨⟨d, hd⟩, ?_⟩)
    exact List.forall_mem_singleton.mpr ⟨_, htokens⟩
  obtain ⟨lines, ⟨d', found, hd', hfound, rfl⟩, houtput⟩ := hwrites hzero
  obtain rfl := hd.eq hd'
  rw [Engine.outcome_search htokens] at hfound
  obtain rfl := Except.ok.inj hfound
  rw [hpaths] at houtput
  -- no tree at all
  obtain ⟨-, -, hsilent, hchecked⟩ := status_and_output treeless htreeless
  obtain ⟨engine', -, -, hpasses, -, hreports⟩ :=
    hchecked (not_misconfigured (value?_worldOf_none _))
  have hfails : (run treeless).status ≠ 0 := fun hstatus =>
    not_passed_tree read_treeless (hpasses.mp hstatus _ List.mem_cons_self)
  obtain ⟨hone, fault, hfirst, hlast⟩ := hreports hfails
  rw [hfirst.eq_unreadableTree read_treeless] at hlast
  -- a variable without a text
  obtain ⟨hunset, -⟩ := status_and_output garbled hgarbled
  have hbyte : (⟨[0xff]⟩ : Raw).text? = none := by decide +kernel
  refine ⟨htwo, hnothing, hzero, houtput, hone, hsilent hfails, ?_,
    hunset Settings.strictVariable _ rfl hbyte⟩
  rw [hlast]
  decide +kernel

/-- A run that tells the version, over a variable that holds no choice. -/
def versioned : World := worldOf ["--version", "tokenize", "a"] (some (.ofString "maybe"))

/-- A variable need not hold one of its words for the status to be 0: a value that is no text is not
    looked at, and neither is any value where the version is asked for. -/
theorem run_of_ill_set_variable :
    (Request.ofWords? garbled.words = some (.run none false (.tokenize "ul > li")) ∧
      garbled.environment Settings.strictVariable = some ⟨[0xff]⟩ ∧
      (∀ word ∈ onWords ++ offWords, (⟨[0xff]⟩ : Raw) ≠ .ofString word) ∧
      (run garbled).status = 0 ∧ (run garbled).output = "name\tul\nname\tli\n") ∧
    (Request.ofWords? versioned.words = some .version ∧ Misconfigured versioned.value? ∧
      run versioned = ⟨0, "selq 0.1.0\n", []⟩) := by
  have hgarbled : Request.ofWords? garbled.words = some (.run none false (.tokenize "ul > li")) := by
    decide +kernel
  have hversioned : Request.ofWords? versioned.words = some .version := by decide +kernel
  refine ⟨⟨hgarbled, rfl, by decide +kernel, ?_⟩, hversioned, misconfigured_worldOf _, ?_⟩
  · have hvariables : Settings.ofVariables garbled.value? = .ok {} := by decide +kernel
    have hrun := run_of_settings hgarbled hvariables
    simp only [Bool.false_eq_true, if_false] at hrun
    obtain ⟨engine, he⟩ := Engine.exists_standard (Settings.override {} none none).mode
    have htokens : (engine.tokenize "ul > li").outcome = .ok [⟨"ul", .name⟩, ⟨"li", .name⟩] := by
      refine Engine.outcome_tokenize_standard he (Journal.eq_ok_of_toOption ?_)
      decide +kernel
    have hlines := (outcome_execute he garbled.files (.tokenize "ul > li")).trans
      (Command.outcome_tokenize_of_ok htokens)
    rw [hrun, finish_of_ok hlines]
    exact ⟨rfl, by decide +kernel⟩
  · unfold run
    rw [hversioned]
    decide +kernel

end TreeQuery.Program
