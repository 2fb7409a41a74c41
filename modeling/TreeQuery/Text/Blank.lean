/-! # Blanks and words — the normal form of a line of text

A *blank* is one of the five ASCII separators: space, tab, line feed, form feed and carriage
return. The vertical tab and the no-break space are ordinary characters. A *word* is a maximal run
of characters that are not blank, and the *normal form* of a text is its words with one space
between neighbours.
-/

namespace TreeQuery.Text

/-- The five characters that separate words. -/
def isBlank (c : Char) : Bool :=
  c = ' ' || c = '\t' || c = '\n' || c = '\x0c' || c = '\r'

/-! ### Words -/

/-- Puts a character in front of the first of a list of pieces. -/
def growFirst (c : Char) : List (List Char) → List (List Char)
  | [] => [[c]]
  | piece :: pieces => (c :: piece) :: pieces

/-- The pieces of a text between its blanks. Every blank ends a piece, so two blanks in a row
leave an empty piece between them. -/
def pieces : List Char → List (List Char)
  | [] => [[]]
  | c :: cs => if isBlank c then [] :: pieces cs else growFirst c (pieces cs)

/-- The words of a text: its pieces without the empty ones. -/
def words (cs : List Char) : List (List Char) :=
  (pieces cs).filter fun piece => !piece.isEmpty

@[simp] theorem words_nil : words [] = [] := rfl

@[simp] theorem words_blank_cons {c : Char} (cs : List Char) (h : isBlank c = true) :
    words (c :: cs) = words cs := by
  simp [words, pieces, h]

/-- The words of a text joined by single spaces. -/
def normalForm (cs : List Char) : List Char :=
  [' '].intercalate (words cs)

@[simp] theorem normalForm_nil : normalForm [] = [] := rfl

end TreeQuery.Text

namespace TreeQuery

/-- The words of a string, in order. -/
def wordsOf (s : String) : List String :=
  (Text.words s.toList).map String.ofList

/-- A string with every run of blanks between two words turned into one space, and the blanks at
both ends removed. -/
def normalize (s : String) : String :=
  String.ofList (Text.normalForm s.toList)

@[simp] theorem toList_normalize (s : String) :
    (normalize s).toList = Text.normalForm s.toList := by
  simp [normalize]

end TreeQuery
