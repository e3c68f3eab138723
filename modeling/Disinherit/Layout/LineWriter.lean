/-!
# Writing lines at a level of indentation

A `LineWriter` collects lines. A line with text is indented by its level, an empty one stays empty,
and in the end the lines are joined by line breaks. A level below zero indents nothing.
-/

namespace Disinherit

/-- Lines written so far, and the level at which the next one is indented. -/
structure LineWriter where
  indentation : String := "    "
  lineBreak : String := "\n"
  level : Int := 0
  lines : List String := []
deriving Repr

namespace LineWriter

/-- The text repeated. -/
def repeated (s : String) (n : Nat) : String :=
  String.join (List.replicate n s)

/-- What stands before the text of a line. -/
def lead (w : LineWriter) : String :=
  repeated w.indentation w.level.toNat

/-- Writes a line. -/
def line (w : LineWriter) (text : String) : LineWriter :=
  { w with lines := w.lines ++ [if text = "" then "" else w.lead ++ text] }

/-- Changes the level. -/
def indent (w : LineWriter) (delta : Int) : LineWriter :=
  { w with level := w.level + delta }

/-- The lines, joined. -/
def output (w : LineWriter) : String :=
  String.intercalate w.lineBreak w.lines

end LineWriter

end Disinherit
