import Disinherit.Class.Check
import Disinherit.Layout.LineWriter
import Disinherit.Layout.Reindent
import Disinherit.Options
import Disinherit.Super.Resolution

/-!
# Flattened classes

`Script.flatten` writes one class with all that it inherits: lineage, resolution, layout.
`Script.emit` puts the flattened classes in place of their statements and copies everything else.
Which classes are written is told by `Registry.keeps`: exported ones always, others unless an
extending class takes their members over.
-/

namespace Disinherit

/-- The class is to be written out. -/
def Registry.keeps (r : Registry) (o : Options) (d : ClassDecl) : Bool :=
  if o.exportOnly then d.exported
  else d.exported || !o.excludeIntermediate || !r.isExtended d.name

/-- What stands before the keyword `class`. -/
def ClassDecl.exportWords (o : Options) (d : ClassDecl) : String :=
  match d.exportForm with
  | .asDefault => "export default "
  | .asNamed => "export "
  | .unexported => if o.exportAll then "export " else ""

/-- A piece of output with what was found and what happened on the way. -/
structure Emission where
  text : String
  diagnostics : List Diagnostic := []
  events : List Event := []

/-- What there is to tell about a lineage. -/
def Lineage.events (l : Lineage) : List Event :=
  (l.closesAt?.map (Event.cycle · l.target)).toList
    ++ [.traced l.target l.chain l.members.size l.constructors.length]

namespace Script

variable (s : Script)

/-- The text of a member: a field ends with a semicolon, and a comment on the last line follows. -/
def memberText (e : Excerpt) (lead : String) : Attempt String := do
  let text ← s.render e.member.node e.edits lead
  let ended := if e.member.node.kind = .fieldDefinition then text ++ ";" else text
  match e.member.trailing with
  | none => return ended
  | some comment => return ended ++ " " ++ (← s.text comment)

/-- Writes comments on lines of their own. -/
def writeComments (w : LineWriter) : List Node → Attempt LineWriter
  | [] => .ok w
  | c :: cs => do
    let text ← s.render c [] w.lead
    writeComments (w.line text) cs

/-- A member is marked with its owner if that is asked for and not obvious. -/
def isMarked (o : Options) (target : String) (e : Excerpt) : Bool :=
  o.preserveComments && (e.rename.isSome || e.member.owner != target)

/-- Writes members, each after the comments above it. -/
def writeMembers (o : Options) (target : String) (w : LineWriter) :
    List Excerpt → Attempt LineWriter
  | [] => .ok w
  | e :: es => do
    let w := if isMarked o target e then w.line ("// from " ++ e.member.owner) else w
    let w ← s.writeComments w e.member.leading
    let text ← s.memberText e w.lead
    writeMembers o target (w.line text) es

/-- The text of a resolved class. -/
def writeClass (o : Options) (d : ClassDecl) (c : Resolution) : Attempt String := do
  let indentation ← s.indentation
  let header := d.exportWords o ++ "class " ++ d.name ++ " \x7b"
  match c.excerpts with
  | [] => return header ++ "\x7d"
  | excerpts =>
    let w : LineWriter := { indentation, lineBreak := s.source.lineBreak }
    let w ← s.writeMembers o d.name ((w.line header).indent 1) excerpts
    return ((w.indent (-1)).line "\x7d").output

/-- A class with all that it inherits. -/
def flatten (r : Registry) (o : Options) (d : ClassDecl) : Attempt Emission := do
  let lineage := r.lineage d.name
  let resolved := s.resolve lineage
  let text ← s.writeClass o d resolved
  return ⟨text, resolved.diagnostics, lineage.events ++ resolved.events⟩

/-- What takes the place of the statement of a class. -/
def replacement (r : Registry) (o : Options) (d : ClassDecl) : Attempt Emission :=
  if r.keeps o d then s.flatten r o d else .ok { text := "", events := [.leftOut d.name] }

/-- The text from `cursor` on, with the statements of the classes replaced. -/
def replaceFrom (r : Registry) (o : Options) : Nat → List ClassDecl → Attempt Emission
  | cursor, [] => do
    let rest ← s.slice cursor s.source.size
    return { text := rest }
  | cursor, d :: ds => do
    let kept ← s.slice cursor d.statement.start
    let placed ← s.replacement r o d
    let rest ← replaceFrom r o d.statement.stop ds
    return ⟨kept ++ placed.text ++ rest.text, placed.diagnostics ++ rest.diagnostics,
      placed.events ++ rest.events⟩

/-- The script with its classes flattened. -/
def emit (r : Registry) (o : Options) : Attempt Emission :=
  s.replaceFrom r o 0 r.classes

end Script

end Disinherit
