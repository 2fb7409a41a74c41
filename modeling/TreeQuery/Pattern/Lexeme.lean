import TreeQuery.Pattern.Basic
import TreeQuery.Text.Letter
import TreeQuery.Text.Space

/-! # Lexemes — the signs a written pattern is made of

A written pattern is read sign by sign before it is put together. Most characters stand for
themselves. The others are escapes (`\n`, `\x41`, `\.`), the dot, sets in square brackets, the two
anchors, the three kinds of opening parenthesis, the closing one, the bar between alternatives, and
the marks of repetition, each of which may be followed by a question mark that makes it lazy.
-/

namespace TreeQuery.Pattern

/-- What a group is good for. -/
inductive GroupKind where
  /-- It only holds its body together. -/
  | plain
  /-- It remembers what its body reads, under a name if it has one. -/
  | remembered (name : Option String)
deriving DecidableEq, Repr

/-- One sign of a written pattern. -/
inductive Lexeme where
  /-- A character, an escape or the dot. -/
  | char (set : CharSet)
  /-- A set in brackets, with the number of characters and ranges written there. -/
  | set (set : CharSet) (members : Nat)
  /-- The anchor at the start of the text. -/
  | start
  /-- The anchor at the end of the text. -/
  | finish
  /-- An opening parenthesis. -/
  | opening (kind : GroupKind)
  /-- A closing parenthesis. -/
  | closing
  /-- The bar between two alternatives. -/
  | bar
  /-- A mark of repetition. -/
  | times (times : Times)
deriving DecidableEq, Repr

namespace Lexeme

/-! ### Escapes -/

/-- The value of a hexadecimal digit. -/
def hexValue? (c : Char) : Option Nat :=
  if '0' ≤ c ∧ c ≤ '9' then some (c.toNat - '0'.toNat)
  else if 'a' ≤ c ∧ c ≤ 'f' then some (c.toNat - 'a'.toNat + 10)
  else if 'A' ≤ c ∧ c ≤ 'F' then some (c.toNat - 'A'.toNat + 10)
  else none

/-- The control character that a letter stands for after a backslash. -/
def control? : Char → Option Char
  | 'n' => some '\n'
  | 'r' => some '\r'
  | 't' => some '\t'
  | 'f' => some '\x0c'
  | 'v' => some '\x0b'
  | 'a' => some '\x07'
  | _ => none

/-- Whether a character stands for itself after a backslash: any ASCII character that is no letter
and no digit, but for the two angle brackets. -/
def isPunctuation (c : Char) : Bool :=
  c.toNat < 128 && !c.isAlphanum && c != '<' && c != '>'

/-- The character that an escape stands for. The text starts after the backslash. -/
def escape : List Char → Except Fault (Char × List Char)
  | 'x' :: high :: low :: rest =>
    match hexValue? high, hexValue? low with
    | some h, some l => .ok (Char.ofNat (16 * h + l), rest)
    | _, _ => .error .badEscape
  | c :: rest =>
    match control? c with
    | some d => .ok (d, rest)
    | none => if isPunctuation c then .ok (c, rest) else .error .badEscape
  | [] => .error .badEscape

/-! ### Sets of characters -/

/-- One character of a set, escaped or not. -/
def member : List Char → Except Fault (Char × List Char)
  | [] => .error .unclosedSet
  | c :: rest => if c = '\\' then escape rest else .ok (c, rest)

/-- A character of a set, or a range if a hyphen and another character follow. A hyphen in front
of the closing bracket or of another hyphen makes no range. -/
def range (cs : List Char) : Except Fault ((Char × Char) × List Char) := do
  let (low, rest) ← member cs
  match rest with
  | '-' :: d :: more =>
    if d = ']' ∨ d = '-' then .ok ((low, low), rest)
    else do
      let (high, rest) ← member (d :: more)
      if low ≤ high then .ok ((low, high), rest) else .error .emptyRange
  | _ => .ok ((low, low), rest)

/-- Whether the text starts with a doubled sign that joins two sets, or with a bracket that opens a
set inside a set. -/
def startsSetAlgebra : List Char → Bool
  | '[' :: _ => true
  | c :: d :: _ => c == d && (c == '&' || c == '-' || c == '~')
  | _ => false

/-- The ranges of a set up to its closing bracket, reading at most the given number of them. -/
def ranges : Nat → List Char → Except Fault (List (Char × Char) × List Char)
  | 0, _ => .error .unclosedSet
  | _ + 1, [] => .error .unclosedSet
  | n + 1, c :: cs =>
    if c = ']' then .ok ([], cs)
    else if startsSetAlgebra (c :: cs) then .error .unsupportedSet
    else do
      let (first, rest) ← range (c :: cs)
      let (others, rest) ← ranges n rest
      .ok (first :: others, rest)

/-- The hyphens at the start of a set stand for themselves, and so does a closing bracket that
comes first. -/
def leading (cs : List Char) : List (Char × Char) × List Char :=
  match cs.takeWhile (· = '-'), cs.dropWhile (· = '-') with
  | [], ']' :: rest => ([(']', ']')], rest)
  | hyphens, rest => (hyphens.map fun c => (c, c), rest)

/-- A set of characters. The text starts after the opening bracket. -/
def bracketed (cs : List Char) : Except Fault (Lexeme × List Char) := do
  let (negated, cs) : Bool × List Char :=
    match cs with
    | '^' :: rest => (true, rest)
    | _ => (false, cs)
  let (first, cs) := leading cs
  let (others, rest) ← ranges (cs.length + 1) cs
  let members := first ++ others
  .ok (.set (.ofRanges negated members) members.length, rest)

/-! ### Groups -/

/-- Whether a character may start the name of a group. -/
def isGroupNameStart (c : Char) : Bool := Text.isAlphabetic c || c == '_'

/-- Whether a character may stand inside the name of a group. -/
def isGroupNameChar (c : Char) : Bool :=
  Text.isAlphanumeric c || c == '_' || c == '.' || c == '[' || c == ']'

/-- Whether a text may name a group. -/
def isGroupName : List Char → Bool
  | [] => false
  | c :: cs => isGroupNameStart c && cs.all isGroupNameChar

/-- The name of a group up to its closing angle bracket. -/
def groupName (cs : List Char) : Except Fault (Lexeme × List Char) :=
  match cs.dropWhile (· ≠ '>') with
  | [] => .error .badGroupName
  | _ :: rest =>
    let name := cs.takeWhile (· ≠ '>')
    if isGroupName name then .ok (.opening (.remembered (some (String.ofList name))), rest)
    else .error .badGroupName

/-- What kind of group an opening parenthesis opens. The text starts after the parenthesis. -/
def group : List Char → Except Fault (Lexeme × List Char)
  | '?' :: ':' :: rest => .ok (.opening .plain, rest)
  | '?' :: 'P' :: '<' :: rest => groupName rest
  | '?' :: '<' :: rest => groupName rest
  | '?' :: _ => .error .unknownGroup
  | rest => .ok (.opening (.remembered none), rest)

/-! ### Repetition -/

/-- A repetition with the given bounds, lazy if a question mark follows. -/
def repetition (least : Nat) (most : Option Nat) : List Char → Lexeme × List Char
  | '?' :: rest => (.times ⟨least, most, false⟩, rest)
  | rest => (.times ⟨least, most, true⟩, rest)

/-- A number with space on either side. -/
def number (cs : List Char) : Option Nat × List Char :=
  let cs := cs.dropWhile Text.isSpace
  let digits := cs.takeWhile Char.isDigit
  let value := digits.foldl (fun n c => 10 * n + (c.toNat - '0'.toNat)) 0
  let rest := (cs.dropWhile Char.isDigit).dropWhile Text.isSpace
  (if digits.isEmpty || UInt32.size ≤ value then none else some value, rest)

/-- The bounds of a repetition. The text starts after the opening brace. -/
def bounds (cs : List Char) : Except Fault (Lexeme × List Char) :=
  match number cs with
  | (some least, '\x7d' :: rest) => .ok (repetition least (some least) rest)
  | (some least, ',' :: '\x7d' :: rest) => .ok (repetition least none rest)
  | (some least, ',' :: rest) =>
    match number rest with
    | (some most, '\x7d' :: rest) =>
      if least ≤ most then .ok (repetition least (some most) rest) else .error .badBounds
    | _ => .error .badBounds
  | _ => .error .badBounds

/-! ### Reading a whole text -/

/-- The sign that starts with a character, and the text after it. -/
def next (c : Char) (rest : List Char) : Except Fault (Lexeme × List Char) :=
  match c with
  | '\\' => (escape rest).map fun (d, rest) => (.char (.single d), rest)
  | '[' => bracketed rest
  | '(' => group rest
  | ')' => .ok (.closing, rest)
  | '|' => .ok (.bar, rest)
  | '*' => .ok (repetition 0 none rest)
  | '+' => .ok (repetition 1 none rest)
  | '?' => .ok (repetition 0 (some 1) rest)
  | '\x7b' => bounds rest
  | '.' => .ok (.char .notNewline, rest)
  | '^' => .ok (.start, rest)
  | '$' => .ok (.finish, rest)
  | c => .ok (.char (.single c), rest)

/-- The signs of a text, reading at most the given number of them. Every sign takes at least one
character, so the length of the text is enough. -/
def readAtMost : Nat → List Char → Except Fault (List Lexeme)
  | _, [] => .ok []
  | 0, _ :: _ => .ok []
  | n + 1, c :: cs => do
    let (lexeme, rest) ← next c cs
    let lexemes ← readAtMost n rest
    .ok (lexeme :: lexemes)

/-- The signs of a written pattern. -/
def read (cs : List Char) : Except Fault (List Lexeme) :=
  readAtMost cs.length cs

end Lexeme

end TreeQuery.Pattern
