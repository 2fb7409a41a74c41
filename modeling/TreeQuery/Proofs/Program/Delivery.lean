import TreeQuery.Command
import TreeQuery.Proofs.Search.Evaluation

/-! # Delivery — commands on a writer that runs full

    A command hands its lines to a writer one after another, and each line in
    several pieces. A writer may have room for only so many bytes; it then takes
    what fits and fails. What the command comes to depends on the running sum of
    its lines alone:

    * **Pieces**: in how many pieces a line is handed over does not matter.
    * **Room**: all is written exactly if it fits as a whole, and otherwise as much
      of it as there is room for.
    * **Blame**: what is named is the first line that does not fit.
-/

namespace TreeQuery.Command

/-! ### Pieces -/

/-- A writer with the room that it has left. -/
structure Writer where
  room : Nat
  received : List UInt8

namespace Writer

/-- A writer that has been handed some bytes. It takes as many as it has room for. -/
def take (w : Writer) (bytes : List UInt8) : Writer :=
  ⟨w.room - bytes.length, w.received ++ bytes.take w.room⟩

/-- Hands pieces to a writer, up to the first that it does not take as a whole. Tells whether there
    is no such piece. -/
def writeAll : Writer → List (List UInt8) → Writer × Bool
  | w, [] => (w, true)
  | w, piece :: pieces =>
    if piece.length ≤ w.room then (w.take piece).writeAll pieces else (w.take piece, false)

/-- Hands lines to a writer, each in pieces, up to the first that it does not take as a whole. Then
    it fails in the given words. -/
def writeLines (complaint : String) (cut : Line → List (List UInt8)) :
    Writer → List Line → Delivery
  | w, [] => ⟨w.received, none⟩
  | w, l :: ls =>
    let (w, whole) := w.writeAll (cut l)
    if whole then w.writeLines complaint cut ls
    else ⟨w.received, some (.notWritten l.purpose complaint)⟩

theorem take_nil (w : Writer) : w.take [] = w := by
  simp [take]

/-- Bytes that fit may be handed over ahead of others. -/
theorem take_append {w : Writer} {bytes : List UInt8} (h : bytes.length ≤ w.room)
    (more : List UInt8) : w.take (bytes ++ more) = (w.take bytes).take more := by
  have hbytes : bytes.take w.room = bytes := List.take_of_length_le h
  have hboth : (bytes ++ more).take w.room = bytes ++ more.take (w.room - bytes.length) := by
    rw [List.take_append, hbytes]
  simp only [take, hbytes, hboth, List.length_append, List.append_assoc, Nat.sub_sub]

/-- **Pieces**: pieces are taken as if they were one. -/
theorem writeAll_eq (w : Writer) (pieces : List (List UInt8)) :
    (w.writeAll pieces).2 = decide (pieces.flatten.length ≤ w.room) ∧
      (w.writeAll pieces).1.received = (w.take pieces.flatten).received ∧
      ((w.writeAll pieces).2 = true → (w.writeAll pieces).1 = w.take pieces.flatten) := by
  induction pieces generalizing w with
  | nil => simp [writeAll, take_nil]
  | cons piece pieces ih =>
    rw [writeAll, List.flatten_cons]
    by_cases hfits : piece.length ≤ w.room
    · obtain ⟨hwhole, hreceived, htaken⟩ := ih (w.take piece)
      rw [if_pos hfits, take_append hfits]
      refine ⟨?_, hreceived, htaken⟩
      rw [hwhole, List.length_append, decide_eq_decide]
      show _ ≤ w.room - piece.length ↔ _
      omega
    · -- the writer is full before the piece ends, and no more is handed to it
      rw [if_neg hfits]
      have hlong : ¬(piece ++ pieces.flatten).length ≤ w.room := by
        rw [List.length_append]
        omega
      refine ⟨(decide_eq_false hlong).symm, ?_, nofun⟩
      have hshort : w.room - piece.length = 0 := by omega
      simp [take, List.take_append, hshort]

/-- Lines that are handed over in pieces are delivered as if each were one piece. -/
theorem writeLines_eq {complaint : String} {cut : Line → List (List UInt8)} {lines : List Line}
    (hcut : ∀ l ∈ lines, (cut l).flatten = l.bytes) (w : Writer) :
    w.writeLines complaint cut lines =
      ⟨w.received ++ (deliverWithin complaint w.room lines).received,
        (deliverWithin complaint w.room lines).fault⟩ := by
  induction lines generalizing w with
  | nil => simp [writeLines, deliverWithin]
  | cons l ls ih =>
    obtain ⟨hl, hls⟩ := List.forall_mem_cons.mp hcut
    obtain ⟨hwhole, hreceived, htaken⟩ := w.writeAll_eq (cut l)
    rw [hl] at hwhole hreceived htaken
    unfold writeLines deliverWithin
    -- a line that fits leaves a writer with less room, to which the induction applies
    by_cases hfits : l.bytes.length ≤ w.room
    · have hall : (w.writeAll (cut l)).2 = true := hwhole.trans (decide_eq_true hfits)
      have hbytes : l.bytes.take w.room = l.bytes := List.take_of_length_le hfits
      simp only [if_pos hall, if_pos hfits, htaken hall, ih hls, take, hbytes, List.append_assoc]
    · have hpart : ¬(w.writeAll (cut l)).2 = true := by
        rw [hwhole, decide_eq_true_iff]
        exact hfits
      simp only [if_neg hpart, if_neg hfits, hreceived, take]

/-- **Pieces**: in how many pieces lines are handed over does not matter. -/
theorem writeLines_eq_deliver {cut : Line → List (List UInt8)} {lines : List Line}
    (hcut : ∀ l ∈ lines, (cut l).flatten = l.bytes) (limit : Limit) :
    writeLines limit.complaint cut ⟨limit.bytes, []⟩ lines = deliver (some limit) lines :=
  writeLines_eq hcut ⟨limit.bytes, []⟩

end Writer

/-! ### Room -/

theorem output_cons (l : Line) (ls : List Line) : output (l :: ls) = l.bytes ++ output ls := rfl

/-- **Room**: a writer receives as much as it has room for. -/
theorem received_deliverWithin (complaint : String) (room : Nat) (lines : List Line) :
    (deliverWithin complaint room lines).received = (output lines).take room := by
  induction lines generalizing room with
  | nil => simp [deliverWithin, output]
  | cons l ls ih =>
    rw [deliverWithin, output_cons, List.take_append]
    by_cases hfits : l.bytes.length ≤ room
    · rw [if_pos hfits, List.take_of_length_le hfits]
      show l.bytes ++ (deliverWithin complaint (room - l.bytes.length) ls).received = _
      rw [ih]
    · -- the cut line leaves no room for the others
      have hnone : room - l.bytes.length = 0 := by omega
      rw [if_neg hfits, hnone, List.take_zero, List.append_nil]

/-- **Room**: all is delivered exactly if it fits as a whole. -/
theorem fault_deliverWithin_eq_none_iff {complaint : String} {room : Nat} {lines : List Line} :
    (deliverWithin complaint room lines).fault = none ↔ (output lines).length ≤ room := by
  induction lines generalizing room with
  | nil => simp [deliverWithin, output]
  | cons l ls ih =>
    rw [deliverWithin, output_cons, List.length_append]
    by_cases hfits : l.bytes.length ≤ room
    · rw [if_pos hfits]
      show (deliverWithin complaint (room - l.bytes.length) ls).fault = none ↔ _
      rw [ih]
      omega
    · rw [if_neg hfits]
      exact ⟨nofun, fun h => by omega⟩

/-! ### Blame -/

/-- A line is the first that does not fit: all lines before it fit, and with it they do not. -/
structure FirstTooMany (room : Nat) (lines : List Line) (i : Nat) (l : Line) : Prop where
  line : lines[i]? = some l
  fits : ∀ k ≤ i, (output (lines.take k)).length ≤ room
  exceeds : room < (output (lines.take (i + 1))).length

/-- With one line more in front, and room for it, the same line is the first that does not fit. -/
theorem FirstTooMany.cons {room i : Nat} {l first : Line} {ls : List Line}
    (hfits : first.bytes.length ≤ room) (h : FirstTooMany (room - first.bytes.length) ls i l) :
    FirstTooMany room (first :: ls) (i + 1) l where
  line := h.line
  fits k hk := by
    cases k with
    | zero => exact Nat.zero_le room
    | succ k =>
      have hothers := h.fits k (by omega)
      rw [List.take_succ_cons, output_cons, List.length_append]
      omega
  exceeds := by
    have hothers := h.exceeds
    rw [List.take_succ_cons, output_cons, List.length_append]
    omega

/-- **Blame**: a fault names the first line that does not fit. -/
theorem exists_firstTooMany {complaint : String} {room : Nat} {lines : List Line} {fault : Fault}
    (h : (deliverWithin complaint room lines).fault = some fault) :
    ∃ i l, FirstTooMany room lines i l ∧ fault = .notWritten l.purpose complaint := by
  induction lines generalizing room with
  | nil => cases h
  | cons l ls ih =>
    rw [deliverWithin] at h
    by_cases hfits : l.bytes.length ≤ room
    · rw [if_pos hfits] at h
      obtain ⟨i, other, hother, rfl⟩ := ih h
      exact ⟨i + 1, other, hother.cons hfits, rfl⟩
    · -- nothing stands in front of the line, so it is too long for the room alone
      rw [if_neg hfits] at h
      refine ⟨0, l, ⟨rfl, ?_, ?_⟩, (Option.some.inj h).symm⟩
      · intro k hk
        obtain rfl : k = 0 := by omega
        exact Nat.zero_le room
      · rw [List.take_succ_cons, output_cons, List.length_append]
        omega

/-! ### Commands -/

/-- A command has lines to write, and writes them to a writer that takes so many bytes at most. -/
structure WritesWithin (limit : Limit) (command : Journal Fault (List Line)) (lines : List Line) :
    Prop where
  /-- On a writer that never fails the command succeeds, with all lines. -/
  complete : write none command = ⟨output lines, none⟩
  fault_eq_none_iff : (write (some limit) command).fault = none ↔
    (output lines).length ≤ limit.bytes
  received_eq : (write (some limit) command).received = (output lines).take limit.bytes
  blames : ∀ fault, (write (some limit) command).fault = some fault →
    ∃ i l, FirstTooMany limit.bytes lines i l ∧ fault = .notWritten l.purpose limit.complaint
  /-- The same comes of it in whatever pieces the lines are handed over. -/
  pieces : ∀ cut : Line → List (List UInt8), (∀ l ∈ lines, (cut l).flatten = l.bytes) →
    Writer.writeLines limit.complaint cut ⟨limit.bytes, []⟩ lines = write (some limit) command

theorem writesWithin_of_outcome {command : Journal Fault (List Line)} {lines : List Line}
    (h : command.outcome = .ok lines) (limit : Limit) : WritesWithin limit command lines := by
  have hwrite : write (some limit) command = deliverWithin limit.complaint limit.bytes lines :=
    write_of_ok h _
  constructor
  · exact write_of_ok h none
  · rw [hwrite]
    exact fault_deliverWithin_eq_none_iff
  · rw [hwrite]
    exact received_deliverWithin limit.complaint limit.bytes lines
  · rw [hwrite]
    intro fault hfault
    exact exists_firstTooMany hfault
  · rw [hwrite]
    intro cut hcut
    exact Writer.writeLines_eq_deliver hcut limit

/-- A writer receives a prefix of what it would receive with more room, whether or not the command
    can be evaluated. -/
theorem received_write_isPrefix (limit : Limit) (command : Journal Fault (List Line)) :
    (write (some limit) command).received <+: (write none command).received := by
  cases h : command.outcome with
  | error fault =>
    rw [write_of_error h, write_of_error h]
  | ok lines =>
    have hwrites := writesWithin_of_outcome h limit
    rw [hwrites.received_eq, hwrites.complete]
    exact List.take_prefix limit.bytes (output lines)

/-- A command that tells tokens names the text of the first token whose line does not fit. -/
theorem exists_token_of_fault {e : Engine} {selector : String} {tokens : List Token} {limit : Limit}
    (h : (e.tokenize selector).outcome = .ok tokens) {fault : Fault}
    (hfault : (write (some limit) (tokenize e selector)).fault = some fault) :
    ∃ i t, tokens[i]? = some t ∧
      fault.message = "failed to write token \x60" ++ t.text ++ "\x60" ∧
      (∀ k ≤ i, (output ((tokens.take k).map tokenLine)).length ≤ limit.bytes) ∧
      limit.bytes < (output ((tokens.take (i + 1)).map tokenLine)).length := by
  have hwrites := writesWithin_of_outcome (outcome_tokenize_of_ok h) limit
  obtain ⟨i, l, hfirst, rfl⟩ := hwrites.blames fault hfault
  have hline := hfirst.line
  rw [List.getElem?_map] at hline
  obtain ⟨t, ht, rfl⟩ := Option.map_eq_some_iff.mp hline
  refine ⟨i, t, ht, ?_, ?_, ?_⟩
  · have hstart : "failed to write " ++ "token \x60" = "failed to write token \x60" := by decide
    show "failed to write " ++ ("token \x60" ++ t.text ++ "\x60") = _
    rw [← hstart, String.append_assoc, String.append_assoc, String.append_assoc]
  · intro k hk
    rw [List.map_take]
    exact hfirst.fits k hk
  · rw [List.map_take]
    exact hfirst.exceeds

/-- **Main theorem**: on a writer that takes so many bytes at most and then fails, a command that
    can be evaluated succeeds exactly if its complete output is no longer than that, and the writer
    has received as much of the output as it takes. Whatever becomes of a command, what the writer
    has received is a prefix of the complete output. A command that tells tokens fails with the
    text of the first token whose line, together with all lines before it, is too long. -/
theorem writesWithin_limit (e : Engine) (d : Document) (key selector : String) (limit : Limit) :
    (∀ tokens, (e.tokenize selector).outcome = .ok tokens →
      WritesWithin limit (tokenize e selector) (tokens.map tokenLine) ∧
      ∀ fault, (write (some limit) (tokenize e selector)).fault = some fault →
        ∃ i t, tokens[i]? = some t ∧
          fault.message = "failed to write token \x60" ++ t.text ++ "\x60" ∧
          (∀ k ≤ i, (output ((tokens.take k).map tokenLine)).length ≤ limit.bytes) ∧
          limit.bytes < (output ((tokens.take (i + 1)).map tokenLine)).length) ∧
    (∀ found, (e.search d selector (some Document.root)).outcome = .ok found →
      WritesWithin limit (search e d selector) (found.map (resultLine d))) ∧
    (∀ start found?, d.findById? Document.root key = some start →
      (e.closest? d start selector Document.root).outcome = .ok found? →
      WritesWithin limit (closest e d key selector) (found?.toList.map (closestLine d))) ∧
    ∀ command ∈ [tokenize e selector, search e d selector, closest e d key selector],
      (write (some limit) command).received <+: (write none command).received := by
  refine ⟨?_, ?_, ?_, ?_⟩
  · intro tokens h
    exact ⟨writesWithin_of_outcome (outcome_tokenize_of_ok h) limit,
      fun _ => exists_token_of_fault h⟩
  · intro found h
    refine writesWithin_of_outcome ?_ limit
    rw [outcome_search, h]
    rfl
  · intro start found? hstart h
    refine writesWithin_of_outcome ?_ limit
    rw [outcome_closest e d selector hstart, h]
    rfl
  · intro command _
    exact received_write_isPrefix limit command

/-- A list of two items, both in a class whose name takes two bytes. -/
def shelf : Document :=
  .ofSpec ⟨"ul", none, none, none,
    [⟨"li", some "first", some "\u00e9", none, []⟩, ⟨"li", none, some "\u00e9", none, []⟩]⟩

/-- A writer that takes some bytes and then is full. -/
def full (bytes : Nat) : Limit := ⟨bytes, "writer full"⟩

/-- With room for sixteen bytes the second token is cut within a character, and the first path in
    front of its line feed. -/
theorem writesWithin_shelf :
    ∃ e : Engine, (Engine.standard .strict).outcome = .ok e ∧
      (e.tokenize "ul .\u00e9").outcome = .ok [⟨"ul", .name⟩, ⟨".\u00e9", .className⟩] ∧
      (e.search shelf "ul .\u00e9" (some Document.root)).outcome = .ok [2, 3] ∧
      shelf.findById? Document.root "first" = some 2 ∧
      (e.closest? shelf 2 "ul .\u00e9" Document.root).outcome = .ok (some 2) ∧
      (∃ fault, (write (some (full 16)) (tokenize e "ul .\u00e9")).fault = some fault ∧
        fault.message = "failed to write token \x60.\u00e9\x60") ∧
      (write (some (full 16)) (tokenize e "ul .\u00e9")).text? = none ∧
      (write (some (full 16)) (search e shelf "ul .\u00e9")).received =
        "ul > li#first.\u00e9".toUTF8.data.toList ∧
      (write (some (full 16)) (closest e shelf "first" "ul .\u00e9")).fault ≠ none ∧
      (write (some (full 17)) (closest e shelf "first" "ul .\u00e9")).fault = none := by
  obtain ⟨e, he⟩ := Engine.exists_standard .strict
  have htokens : (e.tokenize "ul .\u00e9").outcome =
      .ok [⟨"ul", .name⟩, ⟨".\u00e9", .className⟩] := by
    refine Engine.outcome_tokenize_standard he (Journal.eq_ok_of_toOption ?_)
    decide +kernel
  have hfound : (e.search shelf "ul .\u00e9" (some Document.root)).outcome = .ok [2, 3] := by
    rw [Engine.outcome_search htokens]
    exact congrArg _ (by decide +kernel)
  have hstart : shelf.findById? Document.root "first" = some 2 := by decide
  have hclosest : (e.closest? shelf 2 "ul .\u00e9" Document.root).outcome = .ok (some 2) := by
    rw [Engine.outcome_closest? htokens]
    exact congrArg _ (by decide +kernel)
  obtain ⟨hread, hsearch, hup, -⟩ := writesWithin_limit e shelf "first" "ul .\u00e9" (full 16)
  obtain ⟨-, -, hup', -⟩ := writesWithin_limit e shelf "first" "ul .\u00e9" (full 17)
  obtain ⟨hwrites, hblames⟩ := hread _ htokens
  refine ⟨e, he, htokens, hfound, hstart, hclosest, ?_, ?_, ?_, ?_, ?_⟩
  · have hfull : (write (some (full 16)) (tokenize e "ul .\u00e9")).fault ≠ none :=
      hwrites.fault_eq_none_iff.not.mpr (by decide +kernel)
    obtain ⟨fault, hfault⟩ := Option.ne_none_iff_exists'.mp hfull
    obtain ⟨i, t, ht, hmessage, hfits, hexceeds⟩ := hblames fault hfault
    refine ⟨fault, hfault, ?_⟩
    -- the line of the first token fits, and there is no third
    match i with
    | 0 => exact absurd hexceeds (by decide +kernel)
    | 1 =>
      obtain rfl : _ = t := Option.some.inj ht
      rw [hmessage]
      decide +kernel
    | i + 2 => cases ht
  · unfold Delivery.text?
    rw [hwrites.received_eq]
    decide +kernel
  · rw [(hsearch _ hfound).received_eq]
    decide +kernel
  · exact (hup _ _ hstart hclosest).fault_eq_none_iff.not.mpr (by decide +kernel)
  · exact (hup' _ _ hstart hclosest).fault_eq_none_iff.mpr (by decide +kernel)

end TreeQuery.Command
