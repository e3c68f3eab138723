import Disinherit.Member.Identity
import Disinherit.Super.Reference

/-!
# Class members

A `Member` is one declaration in a class body: its identity, the class that owns it, its syntax
node, the comments that belong to it, and the super references in it.
-/

namespace Disinherit

/-- The node of a member's name. -/
def Node.memberName? (n : Node) : Option Node :=
  match n.kind with
  | .methodDefinition => n.child? .name
  | .fieldDefinition => n.child? .property
  | _ => none

/-- One declaration in the body of a class. -/
structure Member where
  identity : Identity
  owner : String
  node : Node
  /-- The comments above the member. -/
  leading : List Node := []
  /-- A comment that follows the member on its last line. -/
  trailing : Option Node := none
  /-- The super references in the member, in the order of the text. -/
  references : List SuperReference := []

namespace Member

/-- The name of the member. -/
def name (m : Member) : String := m.identity.name

/-- The kind of the member. -/
def kind (m : Member) : MemberKind := m.identity.kind

/-- The node of the member's name. -/
def nameNode? (m : Member) : Option Node := m.node.memberName?

/-- The member as messages call it. -/
def label (m : Member) : String :=
  match m.kind with
  | .constructor => m.owner ++ ".constructor"
  | .staticBlock => m.owner ++ " static block"
  | _ => m.owner ++ "." ++ m.name

end Member

end Disinherit
