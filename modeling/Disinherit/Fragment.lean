import Disinherit.Script.ClassStatement

/-!
# Fragments

A script can be taken apart into one fragment for each named top-level class. A fragment is a script
of its own: the class as a default export.
-/

namespace Disinherit

/-- A class on its own. -/
structure Fragment where
  name : String
  code : String
deriving DecidableEq, Repr

namespace Script

variable (s : Script)

/-- The fragment of a statement, if it declares a class with a name. -/
def fragment? (stmt : Node) : Attempt (Option Fragment) :=
  match stmt.declaredClass? with
  | none => .ok none
  | some cls =>
    match cls.child? .name with
    | none => .ok none
    | some nameNode => do
      let name ← s.text nameNode
      let code ← s.text cls
      return some ⟨name, "export default " ++ code⟩

/-- The fragments of some statements. -/
def fragmentsOf : List Node → Attempt (List Fragment)
  | [] => .ok []
  | stmt :: stmts => do
    let first ← s.fragment? stmt
    let rest ← fragmentsOf stmts
    return first.toList ++ rest

/-- The fragments of the script, in the order of the text. -/
def fragments : Attempt (List Fragment) :=
  s.fragmentsOf s.root.namedChildren

end Script

end Disinherit
