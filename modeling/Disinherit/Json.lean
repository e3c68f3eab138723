import Disinherit.Text.Quoted

/-!
# JSON documents

`Json.render` writes a document with one item to a line, indented by two spaces for each level, in
ASCII: every character outside it is escaped, those beyond U+FFFF as two surrogates. Objects keep
the order of their fields, and empty ones take no line.
-/

namespace Disinherit

/-- A JSON document without fractional numbers. -/
inductive Json where
  | null
  | bool (b : Bool)
  | int (n : Int)
  | str (s : String)
  | arr (items : List Json)
  | obj (fields : List (String × Json))

namespace Json

/-- A text or nothing. -/
def ofOption : Option String → Json
  | some s => str s
  | none => null

/-- A UTF-16 unit by its number. -/
def unitEscape (n : Nat) : String :=
  "\\u" ++ Text.hex 4 n

/-- A character as it stands in a string. -/
def escaped (c : Char) : String :=
  let n := c.toNat
  if c == '\x22' then "\\\x22"
  else if c == '\\' then "\\\\"
  else if c == '\n' then "\\n"
  else if c == '\r' then "\\r"
  else if c == '\t' then "\\t"
  else if n = 8 then "\\b"
  else if n = 12 then "\\f"
  else if 0x20 ≤ n ∧ n < 0x7f then String.singleton c
  else if n < 0x10000 then unitEscape n
  else unitEscape (0xd800 + (n - 0x10000) / 0x400) ++ unitEscape (0xdc00 + (n - 0x10000) % 0x400)

/-- A string with its quotes. -/
def quoted (s : String) : String :=
  "\x22" ++ String.join (s.toList.map escaped) ++ "\x22"

/-- A line break and the indentation of a level. -/
def breakTo (level : Nat) : String :=
  "\n" ++ String.ofList (List.replicate (2 * level) ' ')

/-- Items between brackets, each on a line of its own. -/
def enclosed (left right : String) (level : Nat) (items : List String) : String :=
  if items.isEmpty then left ++ right
  else
    left ++ breakTo (level + 1) ++ String.intercalate ("," ++ breakTo (level + 1)) items
      ++ breakTo level ++ right

mutual

/-- A document whose lines after the first are at a level. -/
def renderAt (level : Nat) : Json → String
  | null => "null"
  | bool b => if b then "true" else "false"
  | int n => toString n
  | str s => quoted s
  | arr items => enclosed "[" "]" level (renderItems (level + 1) items)
  | obj fields => enclosed "\x7b" "\x7d" level (renderFields (level + 1) fields)

/-- The items of an array. -/
def renderItems (level : Nat) : List Json → List String
  | [] => []
  | j :: js => j.renderAt level :: renderItems level js

/-- The fields of an object. -/
def renderFields (level : Nat) : List (String × Json) → List String
  | [] => []
  | (k, j) :: fs => (quoted k ++ ": " ++ j.renderAt level) :: renderFields level fs

end

/-- A document as text. -/
def render (j : Json) : String :=
  j.renderAt 0

end Json

end Disinherit
