import Disinherit.Flatten

/-!
# Compilation

`compile` takes a text and its syntax tree to the text with flattened classes. It fails if the tree
has a fault or a class is declared twice; every other finding is a diagnostic beside the result.
-/

namespace Disinherit

/-- The result of a compilation. -/
structure Compilation where
  code : String
  diagnostics : List Diagnostic
  registry : Registry
  events : List Event

/-- Nothing was found. -/
def Compilation.ok (c : Compilation) : Bool :=
  c.diagnostics.isEmpty

/-- Flattens the classes of a text. -/
def compile (o : Options) (text : String) (tree : Node) : Attempt Compilation := do
  let script ← Script.ofTree text tree
  let registry ← script.registry
  let findings := if o.validateInheritance then registry.check else []
  let emission ← script.emit registry o
  let diagnostics := findings ++ emission.diagnostics
  return {
    code := emission.text
    diagnostics
    registry
    events := .registered registry.classes.length :: emission.events
      ++ diagnostics.map .reported }

end Disinherit
