/-!
# Blank characters and trimming

Two notions of blank occur in a script. `isBlank` is the one for text: Unicode white space together
with the four information separators U+001C to U+001F, and without U+200B and U+FEFF, which only
look blank. `isBlankByte` is the one for raw bytes: ASCII white space.

Trimming works on the list of characters. `trimEnd` drops blanks at the end, `trim` on both sides,
and `allBlank` says that there is nothing else.
-/

namespace Disinherit.Text

/-- The code points of blank characters, as closed ranges in increasing order. -/
def blankRanges : List (Nat × Nat) :=
  [(0x09, 0x0d), (0x1c, 0x20), (0x85, 0x85), (0xa0, 0xa0), (0x1680, 0x1680), (0x2000, 0x200a),
    (0x2028, 0x2029), (0x202f, 0x202f), (0x205f, 0x205f), (0x3000, 0x3000)]

/-- A character that trimming removes. -/
def isBlank (c : Char) : Bool :=
  blankRanges.any fun r => decide (r.1 ≤ c.toNat) && decide (c.toNat ≤ r.2)

/-- ASCII white space: tab, line feed, vertical tab, form feed, carriage return and space. -/
def isBlankByte (b : UInt8) : Bool :=
  b == 0x20 || (decide (0x09 ≤ b) && decide (b ≤ 0x0d))

/-- The characters of `cs` without the blanks at its end. -/
def dropBlanksRight (cs : List Char) : List Char :=
  (cs.reverse.dropWhile isBlank).reverse

/-- The text without the blanks at its end. -/
def trimEnd (s : String) : String :=
  String.ofList (dropBlanksRight s.toList)

/-- The text without the blanks at either end. -/
def trim (s : String) : String :=
  String.ofList (dropBlanksRight (s.toList.dropWhile isBlank))

/-- Every character of the text is blank. -/
def allBlank (s : String) : Bool :=
  s.toList.all isBlank

end Disinherit.Text
