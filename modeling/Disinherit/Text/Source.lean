/-!
# Source text by byte offset

A `Source` is a text together with its UTF-8 bytes. Everything that refers to a place in it counts
bytes from zero; ranges are half open. `Source.slice?` turns a range back into text: its ends are
clamped to the text, and a range that cuts a character has no text.

Lines end with a line feed. `Source.startOfLine` gives the offset just after the last line feed
before an offset, and `Source.position` the line (from one) and the byte column (from zero).
-/

namespace Disinherit

namespace Text

/-- The byte that ends a line. -/
abbrev lineFeed : UInt8 := 0x0a

/-- The byte that may stand before a line feed. -/
abbrev carriageReturn : UInt8 := 0x0d

/-- Spaces and tabs: the bytes that indent a line. -/
def isIndentByte (b : UInt8) : Bool :=
  b == 0x20 || b == 0x09

/-- The bytes of a text in UTF-8. -/
def encode (s : String) : List UInt8 :=
  s.toUTF8.data.toList

/-- The text that the bytes spell, unless they begin, end or break off inside a character. -/
def decode? (bytes : List UInt8) : Option String :=
  String.fromUTF8? ⟨bytes.toArray⟩

/-- What was encoded can be decoded. -/
@[simp] theorem decode?_encode (s : String) : decode? (encode s) = some s := by
  have h : s.toByteArray.IsValidUTF8 := s.isValidUTF8
  simp only [decode?, encode, String.toUTF8, Array.toArray_toList]
  unfold String.fromUTF8?
  rw [dif_pos h]
  rfl

end Text

open Text

/-- Line from one and byte column from zero. -/
structure Position where
  line : Nat
  column : Nat
deriving DecidableEq, Repr

/-- A text and its bytes. -/
structure Source where
  text : String
  bytes : List UInt8 := encode text
  bytes_eq : bytes = encode text := by rfl

namespace Source

/-- The source of a text. -/
def ofText (text : String) : Source where
  text := text

variable (s : Source)

/-- The number of bytes. -/
def size : Nat := s.bytes.length

/-- The bytes of the range, as far as there are any. -/
def range (start stop : Nat) : List UInt8 :=
  (s.bytes.drop start).take (stop - start)

/-- The text of the range, if the range holds whole characters. -/
def slice? (start stop : Nat) : Option String :=
  decode? (s.range start stop)

/-- The offset just after the last line feed before `offset`. -/
def startOfLine (offset : Nat) : Nat :=
  let before := s.bytes.take offset
  before.length - (before.reverse.takeWhile (· != lineFeed)).length

/-- The number of line feeds before `offset`. -/
def row (offset : Nat) : Nat :=
  (s.bytes.take offset).count lineFeed

/-- The number of bytes between the start of the line and `offset`. -/
def column (offset : Nat) : Nat :=
  offset - s.startOfLine offset

/-- Line and column of an offset. -/
def position (offset : Nat) : Position :=
  ⟨s.row offset + 1, s.column offset⟩

/-- The line break of the text, which is that of its first line. -/
def lineBreak : String :=
  let first := s.bytes.takeWhile (· != lineFeed)
  if first.length < s.bytes.length ∧ first.getLast? = some carriageReturn then "\r\n" else "\n"

/-- The offsets of the line feeds within a range, in increasing order. -/
def lineFeeds (start stop : Nat) : List Nat :=
  ((s.range start stop).zipIdx start).filterMap fun (b, i) => if b == lineFeed then some i else none

end Source

end Disinherit
