import Mathlib.Data.List.Sort
import Mathlib.Data.String.Basic
import TreeQuery.Proofs.Template.Expansion

/-! # Ordered definitions — a table is told by its texts

    Definitions are a list of entries, and the order of the list says in which order
    they are expanded. A table that grows by insertions is in the order of its names
    and has every name once, so two such tables are the same if they have the same
    text under every name, whatever insertions they come from.
-/

namespace TreeQuery.Definitions

variable {d d' : Definitions} {name text : String}

/-- The entries stand in the order of their names, and no name comes twice. -/
def Ordered (d : Definitions) : Prop := d.entries.Pairwise fun entry later => entry.1 < later.1

instance : DecidablePred Ordered :=
  fun d => inferInstanceAs (Decidable (d.entries.Pairwise fun entry later => entry.1 < later.1))

theorem ordered_empty : empty.Ordered := .nil

/-! ### Insertion -/

theorem eq_or_mem_of_mem_insertEntry {entry : String × String} {entries : List (String × String)}
    (h : entry ∈ insertEntry name text entries) : entry = (name, text) ∨ entry ∈ entries := by
  induction entries with
  | nil => exact .inl (List.mem_singleton.mp h)
  | cons first entries ih =>
    obtain ⟨other, old⟩ := first
    unfold insertEntry at h
    split at h
    · rcases List.mem_cons.mp h with heq | hmem
      · exact .inl heq
      · exact .inr (List.mem_cons_of_mem _ hmem)
    · split at h
      · exact List.mem_cons.mp h
      · rcases List.mem_cons.mp h with rfl | hmem
        · exact .inr List.mem_cons_self
        · rcases ih hmem with heq | hrest
          · exact .inl heq
          · exact .inr (List.mem_cons_of_mem _ hrest)

theorem pairwise_insertEntry {entries : List (String × String)}
    (h : entries.Pairwise fun entry later => entry.1 < later.1) :
    (insertEntry name text entries).Pairwise fun entry later => entry.1 < later.1 := by
  induction entries with
  | nil => exact List.pairwise_singleton ..
  | cons first entries ih =>
    obtain ⟨other, old⟩ := first
    obtain ⟨hfirst, hrest⟩ := List.pairwise_cons.mp h
    rw [insertEntry]
    by_cases heq : name = other
    · -- the new text takes the place of the old one
      rw [if_pos heq, heq]
      exact .cons hfirst hrest
    · rw [if_neg heq]
      by_cases hlt : name < other
      · rw [if_pos hlt]
        have hothers : ∀ entry ∈ (other, old) :: entries, name < entry.1 := by
          intro entry hentry
          rcases List.mem_cons.mp hentry with rfl | hentry
          · exact hlt
          · exact lt_trans hlt (hfirst entry hentry)
        exact .cons hothers h
      · -- the new entry is somewhere behind the first one
        rw [if_neg hlt]
        have hothers : ∀ entry ∈ insertEntry name text entries, other < entry.1 := by
          intro entry hentry
          rcases eq_or_mem_of_mem_insertEntry hentry with rfl | hentry
          · exact lt_of_le_of_ne (not_lt.mp hlt) (Ne.symm heq)
          · exact hfirst entry hentry
        exact .cons hothers (ih hrest)

theorem Ordered.insert (h : d.Ordered) (name text : String) : (d.insert name text).Ordered :=
  pairwise_insertEntry h

/-! ### Lookup -/

theorem Ordered.find?_of_mem (h : d.Ordered) (hmem : (name, text) ∈ d.entries) :
    d.find? name = some text := by
  obtain ⟨front, back, hentries⟩ := List.append_of_mem hmem
  have hfront : ∀ entry ∈ front, ¬(entry.1 == name) = true := by
    intro entry hentry
    have hlt : entry.1 < name := by
      have hpairs := h
      unfold Ordered at hpairs
      rw [hentries, List.pairwise_append] at hpairs
      exact hpairs.2.2 entry hentry (name, text) List.mem_cons_self
    simpa using ne_of_lt hlt
  unfold find?
  rw [hentries, List.find?_append, List.find?_eq_none.mpr hfront]
  simp

theorem Ordered.mem_entries_iff (h : d.Ordered) :
    (name, text) ∈ d.entries ↔ d.find? name = some text :=
  ⟨h.find?_of_mem, mem_entries_of_find?⟩

/-- Tables in order with the same texts are the same. -/
theorem Ordered.ext (h : d.Ordered) (h' : d'.Ordered)
    (hfind : ∀ name, d.find? name = d'.find? name) : d = d' := by
  have hirrefl : Std.Irrefl fun entry later : String × String => entry.1 < later.1 :=
    ⟨fun entry => lt_irrefl entry.1⟩
  have hantisymm : Std.Antisymm fun entry later : String × String => entry.1 < later.1 :=
    ⟨fun _ _ hlt hgt => absurd hgt (lt_asymm hlt)⟩
  have hentries : d.entries = d'.entries := by
    apply List.Pairwise.eq_of_mem_iff h h'
    intro entry
    rw [h.mem_entries_iff, h'.mem_entries_iff, hfind]
  exact congrArg mk hentries

end TreeQuery.Definitions
