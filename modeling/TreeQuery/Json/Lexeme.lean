/-! # JSON lexemes — the signs of a JSON text

A JSON text is a sequence of brackets, braces, commas, colons, strings, numbers and the three words
`true`, `false` and `null`, with blanks in between. The rules are those of RFC 8259 and nothing
else: no comments, no leading zeros, no raw control characters in strings.

A string may spell, by escapes, half of a surrogate pair without the other half. Such a string is
well written but stands for no text, so its content is an option.
-/

namespace TreeQuery.Json

/-- One sign of a JSON text. -/
inductive Lexeme where
  | openArray
  | closeArray
  | openObject
  | closeObject
  | comma
  | colon
  | null
  | bool (value : Bool)
  /-- A number. Its value plays no part. -/
  | number
  /-- A string, with the text that it stands for if it stands for one. -/
  | text (content : Option String)
deriving DecidableEq, Repr

namespace Lexeme

/-! ### Strings -/

/-- A character of a string, or a code unit given in hexadecimal. -/
inductive Part where
  | char (c : Char)
  | unit (value : Nat)
deriving DecidableEq, Repr

/-- The value of a hexadecimal digit. -/
def hexValue? (c : Char) : Option Nat :=
  if '0' ≤ c ∧ c ≤ '9' then some (c.toNat - '0'.toNat)
  else if 'a' ≤ c ∧ c ≤ 'f' then some (c.toNat - 'a'.toNat + 10)
  else if 'A' ≤ c ∧ c ≤ 'F' then some (c.toNat - 'A'.toNat + 10)
  else none

/-- The code unit that four hexadecimal digits spell. -/
def unit? (a b c d : Char) : Option Nat := do
  let a ← hexValue? a
  let b ← hexValue? b
  let c ← hexValue? c
  let d ← hexValue? d
  some (((a * 16 + b) * 16 + c) * 16 + d)

/-- The character that a short escape stands for. -/
def shortEscape? : Char → Option Char
  | '\x22' => some '\x22'
  | '\\' => some '\\'
  | '/' => some '/'
  | 'b' => some '\x08'
  | 'f' => some '\x0c'
  | 'n' => some '\n'
  | 'r' => some '\r'
  | 't' => some '\t'
  | _ => none

/-- The parts of a string up to its closing quote. The text starts after the opening quote. -/
def stringParts : List Char → Option (List Part × List Char)
  | [] => none
  | '\\' :: 'u' :: a :: b :: c :: d :: rest =>
    match unit? a b c d, stringParts rest with
    | some u, some (parts, rest) => some (.unit u :: parts, rest)
    | _, _ => none
  | '\\' :: e :: rest =>
    match shortEscape? e, stringParts rest with
    | some c, some (parts, rest) => some (.char c :: parts, rest)
    | _, _ => none
  | c :: rest =>
    if c = '\x22' then some ([], rest)
    else if c = '\\' ∨ c.toNat < 0x20 then none
    else (stringParts rest).map fun (parts, rest) => (.char c :: parts, rest)

/-- Whether a code unit is the first half of a surrogate pair. -/
def isHighSurrogate (u : Nat) : Bool := 0xd800 ≤ u && u < 0xdc00

/-- Whether a code unit is the second half of a surrogate pair. -/
def isLowSurrogate (u : Nat) : Bool := 0xdc00 ≤ u && u < 0xe000

/-- The text that the parts of a string stand for, unless half of a surrogate pair stands alone. -/
def joinParts : List Part → Option (List Char)
  | [] => some []
  | .char c :: parts => (joinParts parts).map (c :: ·)
  | .unit u :: .unit v :: parts =>
    if isHighSurrogate u then
      if isLowSurrogate v then
        (joinParts parts).map (Char.ofNat (0x10000 + (u - 0xd800) * 0x400 + (v - 0xdc00)) :: ·)
      else none
    else if isLowSurrogate u then none
    else (joinParts (.unit v :: parts)).map (Char.ofNat u :: ·)
  | .unit u :: parts =>
    if isHighSurrogate u || isLowSurrogate u then none
    else (joinParts parts).map (Char.ofNat u :: ·)

/-! ### Numbers -/

/-- What follows one digit or more. -/
def afterDigits? : List Char → Option (List Char)
  | c :: rest => if c.isDigit then some (rest.dropWhile Char.isDigit) else none
  | [] => none

/-- What follows the digits before the point: a zero, or digits that start with no zero. -/
def afterInteger? : List Char → Option (List Char)
  | '0' :: rest => some rest
  | rest => afterDigits? rest

/-- What follows the point and its digits, if there is a point. -/
def afterFraction? : List Char → Option (List Char)
  | '.' :: rest => afterDigits? rest
  | rest => some rest

/-- What follows the exponent, if there is one. -/
def afterExponent? : List Char → Option (List Char)
  | c :: rest =>
    if c = 'e' ∨ c = 'E' then
      match rest with
      | '+' :: rest => afterDigits? rest
      | '-' :: rest => afterDigits? rest
      | rest => afterDigits? rest
    else some (c :: rest)
  | [] => some []

/-- What follows a number. -/
def afterNumber? (cs : List Char) : Option (List Char) := do
  let unsigned :=
    match cs with
    | '-' :: rest => rest
    | rest => rest
  let rest ← afterInteger? unsigned
  let rest ← afterFraction? rest
  afterExponent? rest

/-! ### Reading a whole text -/

/-- Whether a character may stand between two signs. -/
def isBlank (c : Char) : Bool := c = ' ' || c = '\t' || c = '\n' || c = '\r'

/-- The sign that starts with a character, and the text after it. -/
def next? (c : Char) (rest : List Char) : Option (Lexeme × List Char) :=
  match c, rest with
  | '[', rest => some (.openArray, rest)
  | ']', rest => some (.closeArray, rest)
  | '\x7b', rest => some (.openObject, rest)
  | '\x7d', rest => some (.closeObject, rest)
  | ',', rest => some (.comma, rest)
  | ':', rest => some (.colon, rest)
  | 'n', 'u' :: 'l' :: 'l' :: rest => some (.null, rest)
  | 't', 'r' :: 'u' :: 'e' :: rest => some (.bool true, rest)
  | 'f', 'a' :: 'l' :: 's' :: 'e' :: rest => some (.bool false, rest)
  | '\x22', rest =>
    (stringParts rest).map fun (parts, rest) =>
      (.text ((joinParts parts).map String.ofList), rest)
  | c, rest => (afterNumber? (c :: rest)).map fun rest => (.number, rest)

/-- The signs of a text, reading at most the given number of characters one by one. -/
def readAtMost : Nat → List Char → Option (List Lexeme)
  | _, [] => some []
  | 0, _ :: _ => none
  | n + 1, c :: cs =>
    if isBlank c then readAtMost n cs
    else
      match next? c cs with
      | none => none
      | some (lexeme, rest) => (readAtMost n rest).map (lexeme :: ·)

/-- The signs of a JSON text. -/
def read? (cs : List Char) : Option (List Lexeme) :=
  readAtMost cs.length cs

end Lexeme

end TreeQuery.Json
