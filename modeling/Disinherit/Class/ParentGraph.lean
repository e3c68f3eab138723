import Disinherit.Table

/-!
# Inheritance graphs

A `ParentGraph` records which class extends which. It keeps one parent for each child, the one
told last, and for each parent the children in the order in which they were told.
-/

namespace Disinherit

/-- Parents by child and children by parent. -/
structure ParentGraph where
  parents : Table String String := []
  children : Table String (List String) := []
deriving Repr

namespace ParentGraph

/-- The graph without edges. -/
def empty : ParentGraph := {}

/-- Records that `child` extends `parent`. -/
def record (g : ParentGraph) (child parent : String) : ParentGraph :=
  ⟨g.parents.put child parent, g.children.push parent child⟩

/-- The children of a class, in the order in which they were told. -/
def childrenOf (g : ParentGraph) (name : String) : List String :=
  (g.children.get? name).getD []

/-- Some class extends `name`. -/
def isExtended (g : ParentGraph) (name : String) : Bool :=
  !(g.childrenOf name).isEmpty

/-- The pairs of child and parent, in the order in which the children were first told. -/
def edges (g : ParentGraph) : List (String × String) := g.parents

@[simp] theorem childrenOf_record (g : ParentGraph) (child parent name : String) :
    (g.record child parent).childrenOf name
      = if name = parent then g.childrenOf name ++ [child] else g.childrenOf name := by
  by_cases h : name = parent
  · subst h; simp [record, childrenOf]
  · simp [record, childrenOf, h]

end ParentGraph

end Disinherit
