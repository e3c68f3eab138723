import Disinherit.Text.Printable

/-!
# Quoted text

`quoted` shows a text between quotes on one line. It takes single quotes, unless the text holds
single quotes and no double ones. Backslashes and the quote in use are escaped, line feed, carriage
return and tab have short escapes, and whatever cannot be printed is given by its code point in two,
four or eight hexadecimal digits.
-/

namespace Disinherit.Text

/-- The number in hexadecimal, with leading zeros up to a width. -/
def hex (width n : Nat) : String :=
  let digits := Nat.toDigits 16 n
  String.ofList (List.replicate (width - digits.length) '0' ++ digits)

/-- The escape of a code point by its number. -/
def numericEscape (n : Nat) : String :=
  if n < 0x100 then "\\x" ++ hex 2 n
  else if n < 0x10000 then "\\u" ++ hex 4 n
  else "\\U" ++ hex 8 n

/-- A character as it stands between quotes. -/
def escaped (quote c : Char) : String :=
  if c == quote || c == '\\' then String.ofList ['\\', c]
  else if c == '\n' then "\\n"
  else if c == '\r' then "\\r"
  else if c == '\t' then "\\t"
  else if isPrintable c then String.singleton c
  else numericEscape c.toNat

/-- The quotes for a text. -/
def quoteFor (cs : List Char) : Char :=
  if cs.contains '\x27' && !cs.contains '\x22' then '\x22' else '\x27'

/-- The text between quotes. -/
def quoted (s : String) : String :=
  let cs := s.toList
  let quote := quoteFor cs
  String.singleton quote ++ String.join (cs.map (escaped quote)) ++ String.singleton quote

end Disinherit.Text
