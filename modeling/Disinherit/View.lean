import Disinherit.Class.Check
import Disinherit.Json

/-!
# JSON views

What the first steps of a compilation find out, as JSON documents: the classes and the inheritance
graph (`Registry.view`), and the findings about the hierarchy (`Registry.hierarchyView`).
-/

namespace Disinherit

/-- A class without its name. -/
def ClassDecl.view (d : ClassDecl) : Json :=
  .obj [("parent", .ofOption d.parent), ("heritage", .ofOption d.extendsText),
    ("export", .str d.exportForm.label), ("exported", .bool d.exported),
    ("members", .arr (d.members.identities.map fun i => .str i.render))]

/-- The children of each parent. -/
def ParentGraph.view (g : ParentGraph) : Json :=
  .obj (g.children.map fun (parent, children) => (parent, .arr (children.map .str)))

/-- A diagnostic with its parts. -/
def Diagnostic.view (d : Diagnostic) : Json :=
  .obj [("kind", .str d.kind.label), ("classes", .arr (d.classes.map .str)),
    ("message", .str d.message), ("lineno", .int d.line), ("col", .int d.column)]

namespace Registry

variable (r : Registry)

/-- The classes by name, and the inheritance graph. -/
def view : Json :=
  .obj [("classes", .obj (r.classes.map fun d => (d.name, d.view))), ("graph", r.graph.view)]

/-- The inheritance graph, and what is wrong with it. -/
def hierarchyView : Json :=
  .obj [("graph", r.graph.view), ("diagnostics", .arr (r.check.map Diagnostic.view))]

end Registry

end Disinherit
