import TreeQuery.Proofs.Grammar.Stretches
import TreeQuery.Proofs.Program.Delivery
import TreeQuery.Proofs.Selector.Tokens
import TreeQuery.Proofs.Text.Canonical

/-! # Output — the tokens can be read off what is written

    The tokens of a selector are written one on a line, each with its kind in front
    and a tab between. Their texts are written as they are, and a grammar may well
    let a text hold an escaped tab or line feed. It never gets one:

    * **Texts**: a token is a piece of the normal form of its selector, so the only
      blank in its text is the space. This holds under every grammar.
    * **Lines**: pieces that are closed by a mark which does not occur in them are
      got back by splitting at the mark.
    * **Reading**: the line feeds and the first tabs of the output give the tokens
      back.
-/

namespace TreeQuery

/-! ### Texts -/

namespace Selector

/-- **Texts**: a token is a piece of the normal form of its selector. -/
theorem infix_normalForm_of_mem_tokens {g : Grammar} {mode : Mode} {selector : String}
    {tokens : List Token} (h : (tokenize g mode selector).outcome = .ok tokens) {t : Token}
    (ht : t ∈ tokens) : t.text.toList <:+: Text.normalForm selector.toList := by
  rw [outcome_tokenize_eq] at h
  obtain ⟨hit, hmem, -, htext⟩ := exists_hit_of_mem_tokensOf h ht
  have halong := g.scanner.along_scan (normalize selector)
  obtain ⟨start, -, ⟨before, after, hform, -⟩, -⟩ := halong.exists_standsAt hmem
  rw [← toList_normalize, hform, htext, ← List.append_assoc]
  exact List.infix_append before t.text.toList after

/-- The only blank in the text of a token is the space. -/
theorem eq_space_of_mem_token {g : Grammar} {mode : Mode} {selector : String}
    {tokens : List Token} (h : (tokenize g mode selector).outcome = .ok tokens) {t : Token}
    (ht : t ∈ tokens) {c : Char} (hc : c ∈ t.text.toList) (hblank : Text.isBlank c = true) :
    c = ' ' :=
  Text.eq_space_of_mem_normalForm ((infix_normalForm_of_mem_tokens h ht).subset hc) hblank

end Selector

/-! ### Lines -/

namespace Text

/-- Pieces that are each closed by a mark, with nothing behind the last mark. -/
theorem intercalate_concat_nil (mark : Char) (pieces : List (List Char)) :
    [mark].intercalate (pieces ++ [[]]) = pieces.flatMap (· ++ [mark]) := by
  induction pieces with
  | nil => rfl
  | cons piece pieces ih =>
    rw [List.cons_append, List.flatMap_cons, ← ih]
    cases pieces <;> simp [List.intercalate]

/-- **Lines**: pieces that are closed by a mark are got back by splitting at it. -/
theorem splitOn_flatMap {mark : Char} {pieces : List (List Char)}
    (h : ∀ piece ∈ pieces, mark ∉ piece) :
    (pieces.flatMap (· ++ [mark])).splitOn mark = pieces ++ [[]] := by
  rw [← intercalate_concat_nil]
  refine List.splitOn_intercalate mark ?_ (by simp)
  intro piece hpiece
  rcases List.mem_append.mp hpiece with hpiece | hlast
  · exact h piece hpiece
  · rw [List.mem_singleton.mp hlast]
    exact List.not_mem_nil

/-- Cuts a text in two at the first occurrence of a mark. -/
def cutAt (mark : Char) : List Char → Option (List Char × List Char)
  | [] => none
  | c :: cs =>
    if c = mark then some ([], cs)
    else (cutAt mark cs).map fun (front, back) => (c :: front, back)

/-- A cut is at the first occurrence of the mark, and where there is one it is made. -/
theorem cutAt_eq_some_iff {mark : Char} {cs front back : List Char} :
    cutAt mark cs = some (front, back) ↔ cs = front ++ mark :: back ∧ mark ∉ front := by
  induction cs generalizing front with
  | nil => simp [cutAt]
  | cons c cs ih =>
    rw [cutAt]
    by_cases hc : c = mark
    · subst hc
      rw [if_pos rfl]
      cases front with
      | nil => simp
      | cons d front => simp +contextual [eq_comm]
    · rw [if_neg hc]
      cases front with
      | nil => simp [hc]
      | cons d front =>
        -- the first character is not the mark, so it is in front of the cut
        rw [Option.map_eq_some_iff]
        grind

end Text

/-! ### Reading -/

namespace Kind

/-- The kind with the given label. -/
def ofLabel? (label : String) : Option Kind :=
  [nameAndId, id, name, className, nameAndClass].find? fun k => k.label == label

@[simp] theorem ofLabel?_label (k : Kind) : ofLabel? k.label = some k := by
  cases k <;> decide

/-- Labels are in letters and spaces, so they can be told from what is behind them on a line. -/
theorem not_mem_label (k : Kind) : '\t' ∉ k.label.toList ∧ '\n' ∉ k.label.toList := by
  cases k <;> decide

end Kind

namespace Command

/-- The token that a line tells of. -/
def readLine? (line : List Char) : Option Token := do
  let (label, text) ← Text.cutAt '\t' line
  let kind ← Kind.ofLabel? (String.ofList label)
  pure ⟨String.ofList text, kind⟩

/-- The tokens that an output tells of, if every line of it is closed and tells of a token. -/
def readTokens? (output : String) : Option (List Token) :=
  let lines := output.toList.splitOn '\n'
  if lines.getLast? = some [] then lines.dropLast.mapM readLine? else none

theorem toList_tokenLine (t : Token) :
    (tokenLine t).text.toList = t.kind.label.toList ++ '\t' :: t.text.toList := by
  simp [tokenLine]

/-- The first tab of a line separates the kind from the text, whatever the text is. -/
theorem cutAt_tokenLine (t : Token) :
    Text.cutAt '\t' (tokenLine t).text.toList = some (t.kind.label.toList, t.text.toList) := by
  rw [Text.cutAt_eq_some_iff, toList_tokenLine]
  exact ⟨rfl, t.kind.not_mem_label.1⟩

theorem readLine?_tokenLine (t : Token) : readLine? (tokenLine t).text.toList = some t := by
  unfold readLine?
  rw [cutAt_tokenLine]
  simp

/-- The line of a token holds no line feed. -/
theorem not_mem_tokenLine {e : Engine} {selector : String} {tokens : List Token}
    (h : (e.tokenize selector).outcome = .ok tokens) {t : Token} (ht : t ∈ tokens) :
    '\n' ∉ (tokenLine t).text.toList := by
  have hread : (Selector.tokenize e.grammar e.mode selector).outcome = .ok tokens :=
    Journal.outcome_mapFault_eq_ok_iff.mp h
  rw [toList_tokenLine]
  intro hmem
  rcases List.mem_append.mp hmem with hlabel | hback
  · exact t.kind.not_mem_label.2 hlabel
  rcases List.mem_cons.mp hback with htab | htext
  · cases htab
  · cases Selector.eq_space_of_mem_token hread ht htext rfl

/-- The text of several lines, each with its line feed. -/
def textOf (lines : List Line) : String := String.join (lines.map fun l => l.text ++ "\n")

theorem toList_textOf (lines : List Line) :
    (textOf lines).toList = (lines.map fun l => l.text.toList).flatMap (· ++ ['\n']) := by
  simp [textOf, List.flatMap_map]

theorem output_eq_toUTF8 (lines : List Line) :
    output lines = (textOf lines).toUTF8.data.toList := by
  induction lines with
  | nil => rfl
  | cons l ls ih =>
    rw [output_cons, ih]
    simp [textOf, Line.bytes]

/-- Where a command succeeds, all its lines have been received, and whole characters. -/
theorem text?_write {command : Journal Fault (List Line)} {lines : List Line}
    (h : command.outcome = .ok lines) {limit : Option Limit}
    (hfault : (write limit command).fault = none) :
    (write limit command).text? = some (textOf lines) := by
  have hreceived : (write limit command).received = output lines := by
    cases limit with
    | none =>
      rw [write_of_ok h]
      rfl
    | some limit =>
      have hwrites := writesWithin_of_outcome h limit
      rw [hwrites.received_eq]
      exact List.take_of_length_le (hwrites.fault_eq_none_iff.mp hfault)
  unfold Delivery.text? String.fromUTF8?
  rw [hreceived, output_eq_toUTF8]
  exact dif_pos (textOf lines).isValidUTF8

/-- Splitting the text of the lines at the line feeds gives the lines, and an empty piece behind
    the last. -/
theorem splitOn_textOf {lines : List Line} (h : ∀ l ∈ lines, '\n' ∉ l.text.toList) :
    (textOf lines).toList.splitOn '\n' = lines.map (fun l => l.text.toList) ++ [[]] := by
  rw [toList_textOf]
  refine Text.splitOn_flatMap ?_
  intro piece hpiece
  obtain ⟨l, hl, rfl⟩ := List.mem_map.mp hpiece
  exact h l hl

/-- **Reading**: tokens whose lines hold no line feed are read back. -/
theorem readTokens?_textOf {tokens : List Token}
    (h : ∀ t ∈ tokens, '\n' ∉ (tokenLine t).text.toList) :
    readTokens? (textOf (tokens.map tokenLine)) = some tokens := by
  have hsplit := splitOn_textOf (List.forall_mem_map.mpr h)
  have hread : (readLine? ∘ fun l : Line => l.text.toList) ∘ tokenLine = fun t => pure t :=
    funext readLine?_tokenLine
  unfold readTokens?
  simp only [hsplit, List.getLast?_concat, if_pos, List.dropLast_concat, List.mapM_map]
  rw [hread, List.mapM_pure, List.map_id']
  rfl

/-- **Main theorem**: where the command that tells tokens succeeds, whatever the engine and the
    limit of the writer, the selector has been read into tokens, and the output gives them back.
    Split at the line feeds, it has a line for every token, which is not empty, and an empty piece
    at the end. Split at its first tab, a line gives the kind of the token and its text. With a
    writer that never fails the command succeeds if the selector can be read; where it cannot,
    nothing is written to any writer. -/
theorem tokens_of_output (e : Engine) (selector : String) :
    (∀ limit, (write limit (tokenize e selector)).fault = none →
      ∃ tokens text, (e.tokenize selector).outcome = .ok tokens ∧
        (write limit (tokenize e selector)).text? = some text ∧
        (∃ lines, text.toList.splitOn '\n' = lines ++ [[]] ∧ lines.length = tokens.length ∧
          (∀ line ∈ lines, line ≠ []) ∧
          lines.map (Text.cutAt '\t') =
            tokens.map fun t => some (t.kind.label.toList, t.text.toList)) ∧
        readTokens? text = some tokens) ∧
    (∀ tokens, (e.tokenize selector).outcome = .ok tokens →
      (write none (tokenize e selector)).fault = none) ∧
    ∀ cause, (e.tokenize selector).outcome = .error cause →
      ∀ limit, write limit (tokenize e selector) = ⟨[], some (.notTokenized selector cause)⟩ := by
  refine ⟨?_, ?_, ?_⟩
  · intro limit hfault
    cases hread : (e.tokenize selector).outcome with
    | error cause =>
      rw [write_of_error (outcome_tokenize_of_error hread)] at hfault
      cases hfault
    | ok tokens =>
      have hclosed : ∀ t ∈ tokens, '\n' ∉ (tokenLine t).text.toList :=
        fun t => not_mem_tokenLine hread
      refine ⟨tokens, textOf (tokens.map tokenLine), rfl, ?_, ?_, readTokens?_textOf hclosed⟩
      · exact text?_write (outcome_tokenize_of_ok hread) hfault
      · refine ⟨_, splitOn_textOf (List.forall_mem_map.mpr hclosed), ?_, ?_, ?_⟩
        · simp
        · intro line hline
          obtain ⟨t, -, rfl⟩ : ∃ t ∈ tokens, (tokenLine t).text.toList = line := by
            simpa using hline
          rw [toList_tokenLine]
          exact List.append_ne_nil_of_right_ne_nil _ (List.cons_ne_nil _ _)
        · simp [cutAt_tokenLine]
  · intro tokens hread
    rw [write_of_ok (outcome_tokenize_of_ok hread)]
    rfl
  · intro cause hread limit
    exact write_of_error (outcome_tokenize_of_error hread) limit

/-- An escaped tab becomes an escaped space before it is read, and the output has just enough
    room. -/
theorem tokens_of_output_escaped :
    ∃ e : Engine, (Engine.standard .strict).outcome = .ok e ∧
      (e.tokenize "a\\\t\nb .c").outcome = .ok [⟨"a\\ b", .name⟩, ⟨".c", .className⟩] ∧
      (write (some (full 19)) (tokenize e "a\\\t\nb .c")).fault = none ∧
      (write (some (full 19)) (tokenize e "a\\\t\nb .c")).text? = some "name\ta\\ b\nclass\t.c\n" ∧
      readTokens? "name\ta\\ b\nclass\t.c\n" =
        some [⟨"a\\ b", .name⟩, ⟨".c", .className⟩] := by
  obtain ⟨e, he⟩ := Engine.exists_standard .strict
  have hread : (e.tokenize "a\\\t\nb .c").outcome =
      .ok [⟨"a\\ b", .name⟩, ⟨".c", .className⟩] := by
    refine Engine.outcome_tokenize_standard he (Journal.eq_ok_of_toOption ?_)
    decide +kernel
  have hwrite : (write (some (full 19)) (tokenize e "a\\\t\nb .c")).fault = none := by
    rw [write_of_ok (outcome_tokenize_of_ok hread)]
    decide +kernel
  have htext : (write (some (full 19)) (tokenize e "a\\\t\nb .c")).text? =
      some "name\ta\\ b\nclass\t.c\n" := by
    rw [write_of_ok (outcome_tokenize_of_ok hread)]
    decide +kernel
  obtain ⟨hback, -⟩ := tokens_of_output e "a\\\t\nb .c"
  obtain ⟨tokens, text, htokens, hwritten, -, hreads⟩ := hback (some (full 19)) hwrite
  obtain rfl : _ = tokens := Except.ok.inj (hread.symm.trans htokens)
  obtain rfl : _ = text := Option.some.inj (htext.symm.trans hwritten)
  exact ⟨e, he, hread, hwrite, htext, hreads⟩

end Command

end TreeQuery
