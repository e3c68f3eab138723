import Disinherit.Script.Basic

/-!
# Re-indentation

A node that is moved to another place takes its lines along. `Script.shiftEdits` gives the edits
that shift every line after the first from the node's own column to a new indentation: of the blanks
that begin the line, as many as the node's column are exchanged for the new ones, and a line of
blanks loses them all. Lines that begin inside a template literal are part of its value and stay,
and so do lines that another edit touches.

`Script.render` is the text of a node with given edits and these.
-/

namespace Disinherit

namespace Node

mutual

/-- The ranges of the template literals in a node that may be one itself. -/
def templatesAt : Node → List (Nat × Nat)
  | ⟨kind, _, _, _, _, start, stop, children⟩ =>
    if kind = .templateString then [(start, stop)] else templatesAmong children

/-- The ranges of the template literals in several nodes. -/
def templatesAmong : List Node → List (Nat × Nat)
  | [] => []
  | n :: ns => n.templatesAt ++ templatesAmong ns

end

/-- The ranges of the outermost template literals below a node. -/
def templates (n : Node) : List (Nat × Nat) :=
  templatesAmong n.children

end Node

/-- An offset lies strictly inside one of the ranges. -/
def isWithin (offset : Nat) (ranges : List (Nat × Nat)) : Bool :=
  ranges.any fun r => decide (r.1 < offset) && decide (offset < r.2)

/-- An edit shares a byte with the range, or starts at its start. -/
def Edit.touches (start stop : Nat) (e : Edit) : Bool :=
  (decide (e.start ≤ start) && decide (start < e.stop))
    || (decide (start ≤ e.start) && decide (e.start < max stop (start + 1)))

namespace Source

variable (s : Source)

/-- The number of spaces and tabs from `start` on, not counting beyond `stop`. -/
def indentWidth (start stop : Nat) : Nat :=
  ((s.range start stop).takeWhile Text.isIndentByte).length

/-- A line break, or the end of the text, stands at the offset. -/
def isLineEnd (offset : Nat) : Bool :=
  match s.bytes.drop offset with
  | [] => true
  | b :: _ => b == Text.lineFeed || b == Text.carriageReturn

/-- The edit that moves a line to `indent`, when its node starts in `column` and ends at `stop`. -/
def lineEdit (column stop : Nat) (indent : String) (lineBegin : Nat) : Edit :=
  let textBegin := lineBegin + s.indentWidth lineBegin stop
  if s.isLineEnd textBegin then ⟨lineBegin, textBegin, ""⟩
  else ⟨lineBegin, min textBegin (lineBegin + column), indent⟩

end Source

namespace Script

variable (s : Script)

/-- The offsets at which the lines of a node after its first one begin. -/
def startsOfLines (n : Node) : List Nat :=
  (s.source.lineFeeds n.start n.stop).map (· + 1)

/-- The edits that move the lines of a node to `indent`, without disturbing `edits`. -/
def shiftEdits (n : Node) (edits : List Edit) (indent : String) : List Edit :=
  let column := s.source.column n.start
  let free := (s.startsOfLines n).filter fun offset => !isWithin offset n.templates
  (free.map (s.source.lineEdit column n.stop indent)).filter fun e =>
    !edits.any (·.touches e.start e.stop)

/-- The text of a node with edits applied and its lines moved to `indent`. -/
def render (n : Node) (edits : List Edit) (indent : String) : Attempt String :=
  s.withEdits n.start n.stop (edits ++ s.shiftEdits n edits indent)

end Script

end Disinherit
