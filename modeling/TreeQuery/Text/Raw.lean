/-! # Raw texts — bytes that need not be a text

The words of a command line, the values of variables, and the paths and contents of files are bytes.
Mostly they are a text in UTF-8, but nothing makes sure of that. Where a raw text has to be shown in
spite of it, a replacement character takes the place of every stretch that breaks off.
-/

namespace TreeQuery

/-- Bytes that need not be a text. -/
structure Raw where
  bytes : List UInt8
deriving DecidableEq, Repr

namespace Raw

/-- The bytes of a text. -/
def ofString (s : String) : Raw := ⟨s.toUTF8.data.toList⟩

/-- The text that the bytes are, if they are one. -/
def text? (r : Raw) : Option String := String.fromUTF8? ⟨r.bytes.toArray⟩

@[simp] theorem text?_ofString (s : String) : (ofString s).text? = some s := by
  unfold text? String.fromUTF8?
  exact dif_pos s.isValidUTF8

/-! ### Showing -/

/-- The character that takes the place of what breaks off. -/
def replacement : Char := '\ufffd'

/-- The character that bytes start with. -/
def char? (bytes : List UInt8) : Option Char := ByteArray.utf8DecodeChar? ⟨bytes.toArray⟩ 0

/-- How many bytes the characters have that start with a byte. -/
def width (lead : UInt8) : Nat :=
  if lead < 0xc2 then 1
  else if lead < 0xe0 then 2
  else if lead < 0xf0 then 3
  else if lead < 0xf5 then 4
  else 1

/-- Whether a byte goes on in a character, whatever the first byte is. -/
def goesOn (b : UInt8) : Bool := 0x80 ≤ b && b ≤ 0xbf

/-- Whether a byte may be the second of a character. Behind some first bytes it would make a
character that has a shorter form, a surrogate, or a character beyond the last one. -/
def follows (lead second : UInt8) : Bool :=
  goesOn second &&
    match lead with
    | 0xe0 => 0xa0 ≤ second
    | 0xed => second ≤ 0x9f
    | 0xf0 => 0x90 ≤ second
    | 0xf4 => second ≤ 0x8f
    | _ => true

/-- How many bytes of a character that breaks off stand at the front. -/
def brokenLength : List UInt8 → Nat
  | lead :: second :: rest =>
    if width lead < 3 || !follows lead second then 1
    else if width lead < 4 || !rest.head?.any goesOn then 2
    else 3
  | bytes => bytes.length

/-- The characters that bytes are shown as, after some bytes that are passed over. -/
def shownFrom : Nat → List UInt8 → List Char
  | _, [] => []
  | skip + 1, _ :: bs => shownFrom skip bs
  | 0, b :: bs =>
    match char? (b :: bs) with
    | some c => c :: shownFrom (c.utf8Size - 1) bs
    | none => replacement :: shownFrom (brokenLength (b :: bs) - 1) bs

/-- A raw text as it is shown. -/
def shown (r : Raw) : String := String.ofList (shownFrom 0 r.bytes)

theorem bytes_ofString (s : String) :
    (ofString s).bytes = s.toList.flatMap String.utf8EncodeChar := by
  show s.toByteArray.data.toList = _
  rw [← String.utf8Encode_toList, List.utf8Encode, List.data_toByteArray]

theorem char?_append (c : Char) (more : List UInt8) :
    char? (String.utf8EncodeChar c ++ more) = some c := by
  have hbytes : (⟨(String.utf8EncodeChar c ++ more).toArray⟩ : ByteArray) =
      (String.utf8EncodeChar c).toByteArray ++ more.toByteArray := by
    apply ByteArray.ext
    rw [← List.toByteArray_append, List.data_toByteArray]
  unfold char?
  rw [hbytes]
  exact ByteArray.utf8DecodeChar?_utf8EncodeChar_append

theorem shownFrom_append (skipped more : List UInt8) :
    shownFrom skipped.length (skipped ++ more) = shownFrom 0 more := by
  induction skipped with
  | nil => rfl
  | cons b skipped ih => exact ih

theorem shownFrom_utf8EncodeChar (c : Char) (more : List UInt8) :
    shownFrom 0 (String.utf8EncodeChar c ++ more) = c :: shownFrom 0 more := by
  have hchar := char?_append c more
  have hlength := String.length_utf8EncodeChar c
  cases hbytes : String.utf8EncodeChar c with
  | nil => exact absurd hbytes String.utf8EncodeChar_ne_nil
  | cons b bs =>
    rw [hbytes] at hchar hlength
    have hrest : c.utf8Size - 1 = bs.length := by
      rw [← hlength]
      rfl
    rw [List.cons_append] at hchar ⊢
    simp only [shownFrom, hchar, hrest, shownFrom_append]

/-- A text is shown as it is. -/
@[simp] theorem shown_ofString (s : String) : (ofString s).shown = s := by
  have hshown (cs : List Char) : shownFrom 0 (cs.flatMap String.utf8EncodeChar) = cs := by
    induction cs with
    | nil => rfl
    | cons c cs ih => rw [List.flatMap_cons, shownFrom_utf8EncodeChar, ih]
  unfold shown
  rw [bytes_ofString, hshown, String.ofList_toList]

/-- Three bytes of the four of a character, a byte that starts none, and a surrogate. -/
example : (⟨[0xf0, 0x9f, 0x98, 0x61, 0xff, 0xed, 0xa0, 0x80]⟩ : Raw).shown =
    "\ufffda\ufffd\ufffd\ufffd\ufffd" := by decide +kernel

end Raw

end TreeQuery
