import TreeQuery.Proofs.Template.Passes
import TreeQuery.Proofs.Template.Reading

/-! # Idempotence — expanded text holds no references

    What stands for a reference is pasted between other text, so an opening could come
    about across a border: behind a literal that ends in a hash, or around a text that
    starts with a brace. It does not, because every text is pasted in a group, and the
    brackets of a group go on with no opening.

    * **Filling**: pieces that were read, filled with inert texts, make up inert text.
    * **Inert templates**: they are read into one literal at most, and stand for
      themselves.
    * **Definitions**: by induction over what a name denotes, expanded text is inert. A
      table of inert texts is therefore complete for itself.

    Main statement: `expand_idempotent`
-/

namespace TreeQuery

namespace Template

variable {texts : String → Option String} {pieces ps : List Piece} {text : String}
  {cs rest : List Char}

/-! ### Filling -/

theorem toList_grouped_append (text : String) (rest : List Char) :
    (grouped text).toList ++ rest = '(' :: '?' :: ':' :: (text.toList ++ ')' :: rest) := by
  simp [grouped]

/-- Nothing opens across the brackets of a group. -/
theorem inert_grouped_append (htext : Inert text.toList) (hrest : Inert rest) :
    Inert ((grouped text).toList ++ rest) := by
  have hclose : Inert (')' :: rest) := inert_cons_iff.mpr ⟨rfl, hrest⟩
  have hbody : Inert (text.toList ++ ')' :: rest) :=
    htext.append hclose (seals_cons (by decide) (by decide) rest)
  rw [toList_grouped_append]
  exact inert_cons_iff.mpr ⟨rfl, inert_cons_iff.mpr ⟨rfl, inert_cons_iff.mpr ⟨rfl, hbody⟩⟩⟩

/-- Behind a literal stands a group, if anything does. -/
theorem seals_fill {literal : List Char} (hhead : ∀ q ∈ ps.head?, Apart (.literal literal) q)
    (hfill : fill? texts ps = some text) : Seals text.toList := by
  match ps with
  | [] =>
    obtain rfl := Option.some.inj hfill
    exact seals_nil
  | .literal other :: ps => exact nomatch hhead _ rfl rfl
  | .reference name :: ps =>
    rw [fill?_reference] at hfill
    obtain ⟨inner, -, hfill⟩ := Option.bind_eq_some_iff.mp hfill
    obtain ⟨after, -, rfl⟩ := Option.map_eq_some_iff.mp hfill
    rw [String.toList_append, toList_grouped_append]
    exact seals_cons (by decide) (by decide) _

/-- Pieces that were read make up inert text, if the texts of names are inert. -/
theorem Proper.inert_fill (h : Proper pieces)
    (htexts : ∀ name text, .reference name ∈ pieces → texts (String.ofList name) = some text →
      Inert text.toList)
    (hfill : fill? texts pieces = some text) : Inert text.toList := by
  -- only a literal needs that it is sealed: a group is closed by a bracket of its own
  induction pieces generalizing text with
  | nil =>
    obtain rfl := Option.some.inj hfill
    exact inert_nil
  | cons p ps ih =>
    obtain ⟨hp, hhead, hps⟩ := proper_cons_iff.mp h
    have hlater : ∀ text, fill? texts ps = some text → Inert text.toList :=
      fun _ => ih hps fun name text hname => htexts name text (List.mem_cons_of_mem p hname)
    cases p with
    | literal literal =>
      rw [fill?_literal] at hfill
      obtain ⟨after, hafter, rfl⟩ := Option.map_eq_some_iff.mp hfill
      rw [String.toList_append, String.toList_ofList]
      exact hp.2.append (hlater after hafter) (seals_fill hhead hafter)
    | reference name =>
      rw [fill?_reference] at hfill
      obtain ⟨inner, hinner, hfill⟩ := Option.bind_eq_some_iff.mp hfill
      obtain ⟨after, hafter, rfl⟩ := Option.map_eq_some_iff.mp hfill
      rw [String.toList_append]
      exact inert_grouped_append (htexts name inner List.mem_cons_self hinner) (hlater after hafter)

/-! ### Inert templates -/

/-- An inert template is read into pieces that stand for it, whatever the texts of names are. -/
theorem Inert.exists_read (h : Inert cs) :
    ∃ pieces, read cs = .ok pieces ∧ ∀ texts, fill? texts pieces = some (String.ofList cs) := by
  have hread := readFrom_inert_append h seals_nil 0
  rw [List.append_nil, readFrom_nil] at hread
  refine ⟨_, hread, fun texts => ?_⟩
  cases cs with
  | nil => rfl
  | cons c cs =>
    show fill? texts ((c :: cs).foldr growLiteral []) = _
    rw [foldr_growLiteral (by simp) (by simp), fill?_literal]
    simp [fill?]

theorem Inert.outcome_expand (h : Inert text.toList) (owner : String) (finished : Definitions) :
    (expand owner text finished).outcome = .ok text := by
  obtain ⟨pieces, hread, hfill⟩ := h.exists_read
  refine outcome_expand_eq_ok_iff.mpr ⟨pieces, hread, ?_⟩
  rw [hfill, String.ofList_toList]

end Template

/-! ### Definitions -/

namespace Definitions

variable {d r : Definitions} {name text : String}

/-- What a name denotes holds no references. -/
theorem Denotes.inert (h : d.Denotes name text) : Template.Inert text.toList := by
  induction h with
  | intro _ hread hfill _ ih =>
    exact (Template.proper_of_read hread).inert_fill ih hfill

/-- An inert template is what its name denotes. -/
theorem denotes_of_inert (hname : d.find? name = some text) (h : Template.Inert text.toList) :
    d.Denotes name text := by
  obtain ⟨pieces, hread, hfill⟩ := h.exists_read
  rw [String.ofList_toList] at hfill
  exact .intro hname hread (hfill fun _ => none) fun _ _ _ htext => nomatch htext

/-- A table of inert texts is complete for itself. -/
theorem complete_self (hordered : r.Ordered)
    (hinert : ∀ name text, r.find? name = some text → Template.Inert text.toList) :
    r.Complete r where
  ordered := hordered
  denotes name text hname := denotes_of_inert hname (hinert name text hname)
  covers _ text hname := ⟨text, hname⟩

/-- **Expansion is idempotent.** Whatever definitions expand to holds no references: it expands to
    itself, and each of its texts expands to itself against any definitions. A template that
    expands against it expands to text that holds no references, either. -/
theorem expand_idempotent (h : d.expand.outcome = .ok r) :
    (∀ entry ∈ r.entries, Template.Inert entry.2.toList) ∧
    r.expand.outcome = .ok r ∧
    (∀ name text, r.find? name = some text →
      ∀ owner other, (Template.expand owner text other).outcome = .ok text) ∧
    ∀ owner template text, (Template.expand owner template r).outcome = .ok text →
      Template.Inert text.toList := by
  have hcomplete := complete_of_expand h
  have hinert : ∀ name text, r.find? name = some text → Template.Inert text.toList :=
    fun name text hname => (hcomplete.denotes name text hname).inert
  refine ⟨?_, (complete_self hcomplete.ordered hinert).outcome_expand, ?_, ?_⟩
  · intro entry hentry
    exact hinert entry.1 entry.2 (hcomplete.ordered.find?_of_mem hentry)
  · intro name text hname owner other
    exact (hinert name text hname).outcome_expand owner other
  · intro owner template text hexpand
    obtain ⟨pieces, hread, hfill⟩ := Template.outcome_expand_eq_ok_iff.mp hexpand
    exact (Template.proper_of_read hread).inert_fill
      (fun name text _ => hinert _ text) hfill

/-- Two names whose texts have hashes and braces at the borders where they are pasted. -/
def looseHashes : Definitions :=
  ofList [("a", "##\x7bb\x7d\x7bx"), ("b", "\x7by#")]

/-- Neither the texts nor what is pasted around them go on with the openings of each other. -/
theorem expand_idempotent_looseHashes :
    ∃ r, looseHashes.expand.outcome = .ok r ∧ r.expand.outcome = .ok r ∧
      r.find? "a" = some "#(?:\x7by#)\x7bx" ∧
      (Template.expand "c" "#(?:\x7by#)\x7bx" nestedDigits).outcome =
        .ok "#(?:\x7by#)\x7bx" ∧
      (Template.expand "c" "#\x7b#\x7ba\x7d\x7bz" r).outcome =
        .ok "#\x7b(?:#(?:\x7by#)\x7bx)\x7bz" ∧
      Template.Inert "#\x7b(?:#(?:\x7by#)\x7bx)\x7bz".toList := by
  have hok : looseHashes.expand.outcome = .ok (ofList
      [("a", "#(?:\x7by#)\x7bx"), ("b", "\x7by#")]) := by
    decide +kernel
  have hfound : find? (ofList [("a", "#(?:\x7by#)\x7bx"), ("b", "\x7by#")]) "a" =
      some "#(?:\x7by#)\x7bx" := by
    decide +kernel
  have hexpand : (Template.expand "c" "#\x7b#\x7ba\x7d\x7bz" (ofList
      [("a", "#(?:\x7by#)\x7bx"), ("b", "\x7by#")])).outcome =
        .ok "#\x7b(?:#(?:\x7by#)\x7bx)\x7bz" := by
    decide +kernel
  obtain ⟨-, hself, htexts, htemplate⟩ := expand_idempotent hok
  exact ⟨_, hok, hself, hfound, htexts "a" _ hfound "c" nestedDigits, hexpand,
    htemplate "c" _ _ hexpand⟩

end Definitions

end TreeQuery
