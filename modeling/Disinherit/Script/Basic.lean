import Disinherit.Diagnostic
import Disinherit.Text.Edit
import Disinherit.Tree.Node

/-!
# Scripts

A `Script` is a source text with its syntax tree. `Script.ofTree` makes one, or refuses the tree:
a root marked as erroneous is reported at its first fault, as a missing token or as a syntax error.

The text of nodes and ranges is read through `Script.slice` and `Script.text`, which fail when a
range cuts a character.
-/

namespace Disinherit

/-- A text and the syntax tree over it. -/
structure Script where
  source : Source
  root : Node

/-- What is wrong with a node at fault. -/
def Node.fault (n : Node) : Fault :=
  if n.missing then .missing n.kind.name else .unexpected

namespace Script

/-- The script of a text, given its syntax tree. -/
def ofTree (text : String) (root : Node) : Attempt Script :=
  let source := Source.ofText text
  if root.erroneous then
    let bad := root.firstFault?.getD root
    .error (.refused (bad.fault.error (source.position bad.start)))
  else .ok ⟨source, root⟩

variable (s : Script)

/-- The text of a range. -/
def slice (start stop : Nat) : Attempt String :=
  match s.source.slice? start stop with
  | some text => .ok text
  | none => .error .cutCharacter

/-- The text of a range with edits applied. -/
def withEdits (start stop : Nat) (edits : List Edit) : Attempt String :=
  match s.source.withEdits? start stop edits with
  | some text => .ok text
  | none => .error .cutCharacter

/-- The text of a node. -/
def text (n : Node) : Attempt String :=
  s.slice n.start n.stop

/-- The texts of several nodes. -/
def texts : List Node → Attempt (List String)
  | [] => .ok []
  | n :: ns => do
    let first ← s.text n
    let rest ← texts ns
    return first :: rest

/-- Where a node begins. -/
def position (n : Node) : Position :=
  s.source.position n.start

end Script

end Disinherit
