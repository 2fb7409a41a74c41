/-! # Space — characters that leave a gap

Space is wider than the blanks that separate words: it holds the line and column breaks of ASCII,
the next-line character, and the spaces and separators of every width.
-/

namespace TreeQuery.Text

/-- Whether a character is space of any width or a line break. -/
def isSpace (c : Char) : Bool :=
  let n := c.toNat
  (0x09 ≤ n && n ≤ 0x0d) || n == 0x20 || n == 0x85 || n == 0xa0 || n == 0x1680 ||
    (0x2000 ≤ n && n ≤ 0x200a) || n == 0x2028 || n == 0x2029 || n == 0x202f || n == 0x205f ||
    n == 0x3000

/-- A string without the space at its ends. -/
def trimSpace (s : String) : String :=
  String.ofList (((s.toList.dropWhile isSpace).reverse.dropWhile isSpace).reverse)

end TreeQuery.Text
