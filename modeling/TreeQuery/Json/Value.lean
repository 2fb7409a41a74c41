import TreeQuery.Json.Lexeme

/-! # JSON values

A JSON value as it is written: the members of an object keep their order and may repeat a name. A
number is only known to be a number, and a string that stands for no text is still a string.
-/

namespace TreeQuery

/-- A JSON value. -/
inductive Json where
  | null
  | bool (value : Bool)
  | number
  | text (content : Option String)
  | array (items : List Json)
  | object (members : List (Option String × Json))
deriving Repr, Inhabited

namespace Json

mutual

/-- The value at the start of a list of signs. The number bounds the signs that are looked at. -/
def value? : Nat → List Lexeme → Option (Json × List Lexeme)
  | 0, _ => none
  | n + 1, lexemes =>
    match lexemes with
    | .null :: rest => some (.null, rest)
    | .bool value :: rest => some (.bool value, rest)
    | .number :: rest => some (.number, rest)
    | .text content :: rest => some (.text content, rest)
    | .openArray :: .closeArray :: rest => some (.array [], rest)
    | .openArray :: rest => (items? n rest).map fun (items, rest) => (.array items, rest)
    | .openObject :: .closeObject :: rest => some (.object [], rest)
    | .openObject :: rest => (members? n rest).map fun (members, rest) => (.object members, rest)
    | _ => none

/-- One item or more, up to the end of their array. -/
def items? : Nat → List Lexeme → Option (List Json × List Lexeme)
  | 0, _ => none
  | n + 1, lexemes =>
    match value? n lexemes with
    | some (item, .comma :: rest) =>
      (items? n rest).map fun (items, rest) => (item :: items, rest)
    | some (item, .closeArray :: rest) => some ([item], rest)
    | _ => none

/-- One member or more, up to the end of their object. -/
def members? : Nat → List Lexeme → Option (List (Option String × Json) × List Lexeme)
  | 0, _ => none
  | n + 1, lexemes =>
    match lexemes with
    | .text name :: .colon :: rest =>
      match value? n rest with
      | some (value, .comma :: rest) =>
        (members? n rest).map fun (members, rest) => ((name, value) :: members, rest)
      | some (value, .closeObject :: rest) => some ([(name, value)], rest)
      | _ => none
    | _ => none

end

/-- The value that some signs spell. Two calls take at least one sign, and the last call may take
none. -/
def ofLexemes? (lexemes : List Lexeme) : Option Json :=
  match value? (2 * lexemes.length + 1) lexemes with
  | some (value, []) => some value
  | _ => none

/-- The value that a JSON text spells. -/
def ofString? (s : String) : Option Json :=
  (Lexeme.read? s.toList).bind ofLexemes?

end Json

end TreeQuery
