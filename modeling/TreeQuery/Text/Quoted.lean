import TreeQuery.Text.Hidden

/-! # Quoted text — a string as one unambiguous word of a report

A quoted text stands between double quotes. Inside, the quote and the backslash follow a
backslash, the common control characters have their letter, and every other character without a
visible form is written by its code point in hexadecimal.
-/

namespace TreeQuery.Text

/-- A number in hexadecimal, in small letters and without leading zeros. -/
def hexadecimal (n : Nat) : String :=
  String.ofList (Nat.toDigits 16 n)

/-- One character as it stands inside a quoted text. -/
def escaped (c : Char) : String :=
  if c = '\x00' then "\\0"
  else if c = '\t' then "\\t"
  else if c = '\n' then "\\n"
  else if c = '\r' then "\\r"
  else if c = '\\' then "\\\\"
  else if c = '\x22' then "\\\x22"
  else if isHidden c then "\\u\x7b" ++ hexadecimal c.toNat ++ "\x7d"
  else String.singleton c

/-- A string between double quotes. -/
def quoted (s : String) : String :=
  "\x22" ++ String.join (s.toList.map escaped) ++ "\x22"

end TreeQuery.Text
