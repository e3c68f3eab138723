import Disinherit.Class.Registry

/-!
# Checking a hierarchy

Two things can be wrong with the parents in a registry: a parent may not be there
(`Registry.missingParent?`), and a class may be its own ancestor or lead to one that is
(`Registry.cycle?`). `Registry.validate` reports both for each class in turn, after what was
reported before.

`Registry.cycle?` follows the parents of a class and gives the path up to and including the first
class met twice. The walk ends because every step uses up a class of the registry.
-/

namespace Disinherit

namespace ClassDecl

/-- The finding that the registry lacks the parent of a class. -/
def missing (d : ClassDecl) (parent : String) : Diagnostic :=
  .located d.position .missingParent [d.name, parent]
    ("class '" ++ d.name ++ "' extends '" ++ parent ++ "', which is not defined")

/-- The finding that the parents of a class lead along `path` to a class met twice. -/
def circular (d : ClassDecl) (path : List String) : Diagnostic :=
  .located d.position .circularInheritance path
    ("circular inheritance: " ++ String.intercalate " -> " path)

end ClassDecl

namespace Registry

variable (r : Registry)

/-- The path that goes on from `path` with `name`, up to the first class met twice, if the parents
lead to one. -/
def cycleFrom (path : List String) (name : String) : Option (List String) :=
  if met : name ∈ path then some (path ++ [name])
  else
    match known : r.get? name with
    | none => none
    | some d =>
      match d.parent with
      | none => none
      | some parent =>
        have : (r.unseen (path ++ [name])).length < (r.unseen path).length :=
          unseen_lt known met (by simp)
        cycleFrom (path ++ [name]) parent
termination_by (r.unseen path).length

/-- The path from a class along its parents to the first class met twice. -/
def cycle? (name : String) : Option (List String) :=
  r.cycleFrom [] name

/-- The parent that a class names and the registry lacks. -/
def missingParent? (d : ClassDecl) : Option String :=
  d.parent.filter fun p => (r.get? p).isNone

/-- What is wrong with the parents of a class. -/
def checkClass (d : ClassDecl) : List Diagnostic :=
  match d.parent with
  | none => []
  | some _ =>
    ((r.missingParent? d).map d.missing).toList ++ ((r.cycle? d.name).map d.circular).toList

/-- Adds what is wrong with the parents in the registry, class by class, to earlier findings, and
counts what it adds. -/
def validate (earlier : List Diagnostic) : Nat × List Diagnostic :=
  r.classes.foldl (fun sofar d =>
    let found := r.checkClass d
    (sofar.1 + found.length, sofar.2 ++ found)) (0, earlier)

/-- What is wrong with the parents in the registry. -/
def check : List Diagnostic :=
  (r.validate []).2

end Registry

end Disinherit
