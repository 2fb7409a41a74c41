import TreeQuery.Proofs.Grammar.Boundary
import TreeQuery.Proofs.Grammar.Fragments
import TreeQuery.Selector.Tokenizing

/-! # Round trips — what is written word by word is read back

    A selector may be written by putting simple selectors one after another with
    blanks between them. If each of them is what the fragment of its rule matches,
    then the standard grammar reads back just those simple selectors, and nothing
    about the selector is misplaced.

    * **Normal form**: the words of the selector are its simple selectors.
    * **Reading**: from every word on, the scanner finds the words that are left.
-/

namespace TreeQuery

namespace Selector

open Lexer

/-! ### Writing a selector -/

/-- A simple selector as it is written: its kind, its text, and the blanks behind it. -/
structure Spelling where
  kind : Kind
  word : String
  gap : String
deriving DecidableEq, Repr

/-- The token that a simple selector should be read as. -/
def Spelling.token (s : Spelling) : Token := ⟨s.word, s.kind⟩

/-- Simple selectors one after another, each with the blanks behind it. -/
def written : List Spelling → String
  | [] => ""
  | s :: spellings => s.word ++ s.gap ++ written spellings

/-- Simple selectors that can be told apart when they are written one after another: each is what
    the fragment of its rule matches, and has no blanks. All but the last have blanks behind them,
    and do not end in a hexadecimal escape, to which a blank would belong. -/
structure Legible (g : Grammar) (spellings : List Spelling) : Prop where
  matchesWhole : ∀ s ∈ spellings, ∃ fragment, g.fragment? s.kind.rule = some fragment ∧
    Pattern.MatchesWhole fragment s.word
  noBlank : ∀ s ∈ spellings, Text.NoBlank s.word.toList
  gap_allBlank : ∀ s ∈ spellings, Text.AllBlank s.gap.toList
  gap_ne_nil : ∀ s ∈ spellings.dropLast, s.gap.toList ≠ []
  not_endsInCode : ∀ s ∈ spellings.dropLast, ¬EndsInCode s.word.toList

/-! ### The normal form -/

/-- The texts of some simple selectors. -/
def textsOf (spellings : List Spelling) : List (List Char) :=
  spellings.map fun s => s.word.toList

/-- The texts of some simple selectors with a single space between neighbours. -/
def joined (spellings : List Spelling) : List Char := [' '].intercalate (textsOf spellings)

theorem joined_singleton (s : Spelling) : joined [s] = s.word.toList :=
  List.intercalate_singleton

theorem joined_cons_cons (s t : Spelling) (spellings : List Spelling) :
    joined (s :: t :: spellings) = s.word.toList ++ ' ' :: joined (t :: spellings) := by
  show [' '].intercalate (s.word.toList :: t.word.toList :: textsOf spellings) = _
  rw [List.intercalate_cons_cons, List.append_assoc]
  rfl

theorem words_written {spellings : List Spelling}
    (hne : ∀ s ∈ spellings, s.word.toList ≠ [])
    (hword : ∀ s ∈ spellings, Text.NoBlank s.word.toList)
    (hgap : ∀ s ∈ spellings, Text.AllBlank s.gap.toList)
    (hsome : ∀ s ∈ spellings.dropLast, s.gap.toList ≠ []) :
    Text.words (written spellings).toList = textsOf spellings := by
  induction spellings with
  | nil => rfl
  | cons s spellings ih =>
    have hs : s ∈ s :: spellings := List.mem_cons_self
    unfold written
    rw [String.toList_append, String.toList_append]
    cases spellings with
    | nil =>
      rw [written, String.toList_empty, List.append_nil, Text.words_append_allBlank _ (hgap s hs)]
      exact Text.words_of_noBlank (hne s hs) (hword s hs)
    | cons t spellings =>
      -- the first blank of the gap divides the words, and the rest of it is passed over
      have hrest := ih (fun u hu => hne u (List.mem_cons_of_mem s hu))
        (fun u hu => hword u (List.mem_cons_of_mem s hu))
        (fun u hu => hgap u (List.mem_cons_of_mem s hu))
        (fun u hu => hsome u (List.mem_cons_of_mem s hu))
      have hblanks := hgap s hs
      obtain ⟨b, blanks, hb⟩ := List.exists_cons_of_ne_nil (hsome s List.mem_cons_self)
      rw [hb] at hblanks ⊢
      rw [List.append_assoc, List.cons_append,
        Text.words_append_blank (hblanks b List.mem_cons_self),
        Text.words_of_noBlank (hne s hs) (hword s hs),
        Text.words_allBlank_append fun c hc => hblanks c (List.mem_cons_of_mem b hc), hrest]
      rfl

/-! ### Gaps -/

theorem checkGap_of_slice {mode : Mode} {subject : List Char} {start stop : Nat}
    (h : Text.slice subject start stop = [] ∨ Text.slice subject start stop = [' ']) :
    checkGap mode subject start stop = pure () := by
  unfold checkGap
  exact if_pos h

/-- Nothing stands between a place and itself. -/
theorem checkGap_self (mode : Mode) (before after : List Char) :
    checkGap mode (before ++ after) (Text.byteLength before) (Text.byteLength before) =
      pure () := by
  refine checkGap_of_slice (.inl ?_)
  exact Text.slice_append before [] after

/-- A single space is in place between two tokens. -/
theorem checkBefore_space (mode : Mode) (before after : List Char) {hit : Hit}
    (hstart : hit.start = Text.byteLength before + 1) :
    checkBefore mode (before ++ ' ' :: after) (some (Text.byteLength before)) hit = pure () := by
  unfold checkBefore
  have hne : ¬some (Text.byteLength before) = some hit.start := by
    rw [Option.some.injEq, hstart]
    exact Nat.ne_of_lt (Nat.lt_succ_self _)
  rw [if_neg hne, hstart]
  exact checkGap_of_slice (.inr (Text.slice_append before [' '] after))

/-! ### Reading -/

/-- A word that the lexer reads as a whole by the rule of its kind. -/
structure Spelling.Readable (s : Spelling) : Prop where
  reads : readAs? s.kind.rule s.word.toList = some []
  noBlank : Text.NoBlank s.word.toList

theorem Spelling.Readable.ne_nil {s : Spelling} (h : s.Readable) : s.word.toList ≠ [] := by
  intro hnil
  have hlt := (closed_readAs? h.reads).2
  rw [hnil] at hlt
  exact Nat.lt_irrefl 0 hlt

theorem Spelling.Readable.token?_eq {s : Spelling} (h : s.Readable) :
    token? s.word.toList = some (s.kind.rule, []) :=
  token?_of_readAs? h.reads rfl rfl

theorem Spelling.Readable.token?_append {s : Spelling} (h : s.Readable)
    (hcode : ¬EndsInCode s.word.toList) (cs : List Char) :
    token? (s.word.toList ++ ' ' :: cs) = some (s.kind.rule, ' ' :: cs) := by
  have hstop : unit? isNameChar (' ' :: cs) = none := unit?_of_isBlank rfl cs
  exact token?_of_readAs? (readAs?_append h.noBlank (' ' :: cs) h.reads hcode hstop) rfl rfl

/-- A hit of a kind that can be looked for, with nothing misplaced in front of it. -/
theorem tokensOf_cons {mode : Mode} {subject : List Char} {previous : Option Nat} {hit : Hit}
    {hits : List Hit} {kind : Kind} {tokens : List Token} (hkind : hit.rule = kind.rule)
    (hbefore : checkBefore mode subject previous hit = pure ())
    (hrest : tokensOf mode subject (some hit.stop) hits = pure tokens) :
    tokensOf mode subject previous (hit :: hits) = pure (⟨hit.text, kind⟩ :: tokens) := by
  rw [tokensOf, hkind, Kind.kind?_rule]
  show (checkBefore mode subject previous hit >>= _) = _
  rw [hbefore, Journal.pure_bind, hrest, Journal.pure_bind]

/-- A word at the end of a text, with nothing misplaced in front of it, is the last token. -/
theorem tokensOf_last {mode : Mode} {word : List Char} {kind : Kind}
    (h : token? word = some (kind.rule, [])) (before : List Char) (previous : Option Nat) {n : Nat}
    (hn : word.length ≤ n)
    (hbefore : ∀ hit : Hit, hit.start = Text.byteLength before →
      checkBefore mode (before ++ word) previous hit = pure ()) :
    tokensOf mode (before ++ word) previous (hitsWithin n (Text.byteLength before) word) =
      pure [⟨String.ofList word, kind⟩] := by
  obtain ⟨m, _, hhits⟩ := hitsWithin_of_some (Text.byteLength before) hn h
  have hhit := hit_append (Text.byteLength before) word [] kind.rule
  rw [List.append_nil] at hhit
  rw [hhits, hitsWithin_nil, hhit]
  -- nothing stands behind the last hit
  have hend : tokensOf mode (before ++ word)
      (some (Text.byteLength before + Text.byteLength word)) [] = pure [] := by
    have hgap := checkGap_self mode (before ++ word) []
    rw [List.append_nil, Text.byteLength_append] at hgap
    rw [tokensOf, Text.byteLength_append]
    show (checkGap _ _ (Text.byteLength before + Text.byteLength word) _ >>= _) = _
    rw [hgap]
    rfl
  exact tokensOf_cons rfl (hbefore _ rfl) hend

/-- At the start of a text there is nothing in front of a hit. -/
theorem checkBefore_start (mode : Mode) (subject : List Char) {hit : Hit}
    (hstart : hit.start = Text.byteLength []) : checkBefore mode subject none hit = pure () := by
  unfold checkBefore
  rw [if_neg (Option.some_ne_none hit.start).symm, hstart]
  exact checkGap_self mode [] subject

/-- From every word on, the tokens are the words that are left, provided that the first of them is
    in place. -/
theorem tokensOf_hitsWithin {mode : Mode} {s : Spelling} {spellings : List Spelling}
    (hreadable : ∀ t ∈ s :: spellings, t.Readable)
    (hcode : ∀ t ∈ (s :: spellings).dropLast, ¬EndsInCode t.word.toList)
    (before : List Char) (previous : Option Nat) {n : Nat}
    (hn : (joined (s :: spellings)).length ≤ n)
    (hbefore : ∀ hit : Hit, hit.start = Text.byteLength before →
      checkBefore mode (before ++ joined (s :: spellings)) previous hit = pure ()) :
    tokensOf mode (before ++ joined (s :: spellings)) previous
        (hitsWithin n (Text.byteLength before) (joined (s :: spellings))) =
      pure ((s :: spellings).map Spelling.token) := by
  have hs := hreadable s List.mem_cons_self
  -- by induction on the words: what has been read moves to the front, with the space behind it
  induction spellings generalizing s before previous n with
  | nil =>
    rw [joined_singleton] at hn hbefore ⊢
    rw [tokensOf_last hs.token?_eq before previous hn hbefore, String.ofList_toList]
    rfl
  | cons t spellings ih =>
    rw [joined_cons_cons] at hn hbefore ⊢
    -- the word is the first hit, the space behind it is passed over, and the next word is in place
    obtain ⟨m, hm, hhits⟩ := hitsWithin_of_some (Text.byteLength before) hn
      (hs.token?_append (hcode s List.mem_cons_self) (joined (t :: spellings)))
    obtain ⟨k, hk, hspace⟩ := hitsWithin_of_none
      (Text.byteLength before + Text.byteLength s.word.toList) hm
      (show token? (' ' :: joined (t :: spellings)) = none from rfl)
    have hread : Text.byteLength (before ++ s.word.toList) =
        Text.byteLength before + Text.byteLength s.word.toList := Text.byteLength_append _ _
    have hoffset : Text.byteLength (before ++ s.word.toList ++ [' ']) =
        Text.byteLength before + Text.byteLength s.word.toList + ' '.utf8Size := by
      rw [Text.byteLength_append, hread]
      rfl
    have hrest := ih (fun u hu => hreadable u (List.mem_cons_of_mem s hu))
      (fun u hu => hcode u (List.mem_cons_of_mem s hu))
      (before ++ s.word.toList ++ [' ']) (some (Text.byteLength (before ++ s.word.toList))) hk
    rw [List.append_assoc (before ++ s.word.toList), hoffset] at hrest
    have htokens := hrest (fun hit hstart => checkBefore_space mode _ _ (hread ▸ hstart))
      (hreadable t (List.mem_cons_of_mem s List.mem_cons_self))
    rw [List.singleton_append, List.append_assoc, hread] at htokens
    rw [hhits, hit_append, hspace, tokensOf_cons rfl (hbefore _ rfl) htokens,
      String.ofList_toList]
    rfl

/-- A normal form is read as the words that it is made of. -/
theorem tokensOf_joined (mode : Mode) {spellings : List Spelling}
    (hreadable : ∀ s ∈ spellings, s.Readable)
    (hcode : ∀ s ∈ spellings.dropLast, ¬EndsInCode s.word.toList) :
    tokensOf mode (joined spellings) none (hits (joined spellings)) =
      pure (spellings.map Spelling.token) := by
  cases spellings with
  | nil =>
    show (checkGap mode [] 0 0 >>= _) = _
    rw [show checkGap mode [] 0 0 = pure () from checkGap_self mode [] []]
    rfl
  | cons s spellings =>
    exact tokensOf_hitsWithin hreadable hcode [] none (Nat.le_refl _)
      fun hit => checkBefore_start mode _

/-- What tokenizing reports when the hits are read without a fault or a warning. -/
theorem tokenize_of_tokensOf {g : Grammar} {mode : Mode} {selector : String} {tokens : List Token}
    (h : tokensOf mode (normalize selector).toList none (g.scanner.scan (normalize selector)) =
      pure tokens) :
    tokenize g mode selector =
      ⟨.ok tokens, [.tokenized (normalize selector) tokens.length]⟩ := by
  show (tokensOf mode _ none _ >>= _) = _
  rw [h]
  rfl

/-! ### The round trip -/

/-- What a fragment of the standard grammar matches is readable. -/
theorem Legible.readable {g : Grammar} (hg : Grammar.standard.outcome = .ok g)
    {spellings : List Spelling} (h : Legible g spellings) {s : Spelling} (hs : s ∈ spellings) :
    s.Readable := by
  obtain ⟨fragment, hfragment, hmatches⟩ := h.matchesWhole s hs
  rw [Grammar.Standard.fragment?_of_outcome hg] at hfragment
  rw [← Option.some.inj hfragment, Grammar.Standard.matchesWhole_ruleText_iff] at hmatches
  exact ⟨hmatches, h.noBlank s hs⟩

theorem toList_normalize_written {lead : String} (hlead : Text.AllBlank lead.toList)
    {g : Grammar} {spellings : List Spelling} (h : Legible g spellings)
    (hne : ∀ s ∈ spellings, s.word.toList ≠ []) :
    (normalize (lead ++ written spellings)).toList = joined spellings := by
  rw [toList_normalize, String.toList_append, Text.normalForm, Text.words_allBlank_append hlead,
    words_written hne h.noBlank h.gap_allBlank h.gap_ne_nil]
  rfl

/-- **Main theorem**: simple selectors that are written one after another with blanks between them
    are read back by the standard grammar, in strict and in lenient mode, and nothing is passed
    over with a warning. -/
theorem tokenize_written {g : Grammar} (hg : Grammar.standard.outcome = .ok g) (mode : Mode)
    (lead : String) (hlead : Text.AllBlank lead.toList) {spellings : List Spelling}
    (h : Legible g spellings) :
    (tokenize g mode (lead ++ written spellings)).outcome = .ok (spellings.map Spelling.token) ∧
      ∀ e ∈ (tokenize g mode (lead ++ written spellings)).events, e.level ≠ .warn := by
  have hreadable : ∀ s ∈ spellings, s.Readable := fun s hs => h.readable hg hs
  have hnormal := toList_normalize_written hlead h fun s hs => (hreadable s hs).ne_nil
  have hscan := Grammar.Standard.scan_of_outcome hg (normalize (lead ++ written spellings))
  have htokens := tokensOf_joined mode hreadable h.not_endsInCode
  rw [← hnormal, ← hscan] at htokens
  rw [tokenize_of_tokensOf htokens]
  refine ⟨rfl, ?_⟩
  intro e he
  obtain rfl := List.mem_singleton.mp he
  exact nofun

/-- A hash that is escaped belongs to the name in front of it. -/
theorem tokenize_written_escaped_hash :
    ∃ g, Grammar.standard.outcome = .ok g ∧
      (tokenize g .strict " p\\#x\t\nli.item ").outcome =
        .ok [⟨"p\\#x", .name⟩, ⟨"li.item", .nameAndClass⟩] := by
  obtain ⟨definitions, hg⟩ := Grammar.Standard.outcome_standard
  refine ⟨_, hg, ?_⟩
  have hlegible : Legible _ [⟨.name, "p\\#x", "\t\n"⟩, ⟨.nameAndClass, "li.item", " "⟩] := {
    matchesWhole := by
      intro s hs
      refine ⟨_, Grammar.Standard.fragment?_of_outcome hg s.kind.rule, ?_⟩
      rw [Grammar.Standard.matchesWhole_ruleText_iff]
      revert s
      decide +kernel
    noBlank := by decide +kernel
    gap_allBlank := by decide +kernel
    gap_ne_nil := by decide +kernel
    not_endsInCode := by decide +kernel }
  exact (tokenize_written hg .strict " " (by decide +kernel) hlegible).1

end Selector

end TreeQuery
