import Disinherit.Class.ParentGraph
import Disinherit.Member.Declaration

/-!
# The classes of a script

`Script.registry` reads the named top-level classes of a script into a `Registry`: a list of class
declarations in the order of the text, no two of the same name. The inheritance graph follows from
the declarations. A second class of a name is refused at the place of that class.
-/

namespace Disinherit

/-- A top-level class. -/
structure ClassDecl where
  name : String
  /-- The parent's name, where the class extends a plain name. -/
  parent : Option String
  /-- The text after `extends`. -/
  extendsText : Option String
  exportForm : ExportForm
  /-- The statement that the flattened class replaces. -/
  statement : Node
  /-- The class itself. -/
  node : Node
  members : Members
  position : Position

/-- The class is exported in some form. -/
def ClassDecl.exported (d : ClassDecl) : Bool :=
  d.exportForm != .unexported

/-- The classes of a script, in the order of the text. -/
structure Registry where
  classes : List ClassDecl
  distinct : (classes.map (·.name)).Nodup

namespace Registry

/-- The registry without classes. -/
def empty : Registry := ⟨[], List.nodup_nil⟩

/-- The names of the classes. -/
def names (r : Registry) : List String :=
  r.classes.map (·.name)

/-- The class of a name. -/
def get? (r : Registry) (name : String) : Option ClassDecl :=
  r.classes.find? (·.name = name)

/-- Adds a class with a new name. -/
def declare (r : Registry) (d : ClassDecl) (h : d.name ∉ r.names) : Registry where
  classes := r.classes ++ [d]
  distinct := by
    rw [List.map_append, List.nodup_append]
    refine ⟨r.distinct, by simp, ?_⟩
    intro a ha b hb
    obtain rfl : b = d.name := by simpa using hb
    exact fun e => h (e ▸ ha)

/-- Who extends whom. -/
def graph (r : Registry) : ParentGraph :=
  r.classes.foldl (fun g d => match d.parent with
    | some p => g.record d.name p
    | none => g) .empty

/-- Some class of the registry extends `name`. -/
def isExtended (r : Registry) (name : String) : Bool :=
  r.graph.isExtended name

theorem name_of_get? {r : Registry} {name : String} {d : ClassDecl}
    (h : r.get? name = some d) : d.name = name := by
  simpa using List.find?_some h

theorem mem_of_get? {r : Registry} {name : String} {d : ClassDecl}
    (h : r.get? name = some d) : d ∈ r.classes :=
  List.mem_of_find?_eq_some h

/-- The classes whose names are not in `seen`. A walk along parents that never returns to a name it
has seen makes them fewer with every step, see `unseen_lt`. -/
def unseen (r : Registry) (seen : List String) : List ClassDecl :=
  r.classes.filter (·.name ∉ seen)

theorem unseen_lt {r : Registry} {seen seen' : List String} {name : String} {d : ClassDecl}
    (hget : r.get? name = some d) (hnew : name ∉ seen)
    (hseen' : ∀ x, x ∈ seen' ↔ x ∈ seen ∨ x = name) :
    (r.unseen seen').length < (r.unseen seen).length := by
  have hsub : r.unseen seen' = (r.unseen seen).filter (·.name ≠ name) := by
    simp only [unseen, List.filter_filter]
    congr 1
    funext c
    simp [hseen', Bool.and_comm]
  rw [hsub]
  refine List.length_filter_lt_length_iff_exists.2 ⟨d, ?_, by simp [name_of_get? hget]⟩
  exact List.mem_filter.2 ⟨mem_of_get? hget, by simpa [name_of_get? hget] using hnew⟩

end Registry

namespace Script

variable (s : Script)

/-- Adds the classes of some statements to a registry. -/
def registerAll (r : Registry) : List Node → Attempt Registry
  | [] => .ok r
  | stmt :: stmts =>
    match stmt.declaredClass? with
    | none => registerAll r stmts
    | some cls =>
      match cls.child? .name with
      | none => registerAll r stmts
      | some nameNode => do
        let name ← s.text nameNode
        if h : name ∈ r.names then
          throw (.refused ((Fault.redeclared name).error (s.position cls)))
        else
          let clause ← s.extendsClause cls
          let members ← s.membersOf cls name
          registerAll (r.declare ⟨name, clause.parent, clause.text, stmt.exportForm, stmt,
            cls, members, s.position cls⟩ h) stmts

/-- The named top-level classes of the script. -/
def registry : Attempt Registry :=
  s.registerAll .empty s.root.namedChildren

end Script

end Disinherit
