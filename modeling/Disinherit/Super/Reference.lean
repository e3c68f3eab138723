import Disinherit.Script.ClassStatement

/-!
# Super references

Inside a class member, `super.x` and `super[e]` refer to a member of the parent class, and
`super(...)` calls the parent's constructor. `Node.superSites` finds them below a node, in the order
of the text. It does not enter functions and classes, where `super` means something else, and
of a reference that it found it searches only the index or the arguments.

`Script.referencesIn` reads them for resolution: each `SuperReference` knows its node, the node it
stands in, and the member it asks for (`SuperTarget`). `SuperReference.use` tells reading from
writing.
-/

namespace Disinherit

namespace Node

/-- The child with a role is the keyword `super`. -/
def hasSuper (n : Node) (f : Field) : Bool :=
  match n.child? f with
  | some c => c.kind == .superKeyword
  | none => false

/-- `super.x` or `super[e]`. -/
def isSuperMember (n : Node) : Bool :=
  (n.kind == .memberExpression || n.kind == .subscriptExpression) && n.hasSuper .object

/-- `super(...)`. -/
def isSuperCall (n : Node) : Bool :=
  n.kind == .callExpression && n.hasSuper .function

/-- A super reference together with the node it is a child of. -/
structure SuperSite where
  node : Node
  parent : Node

mutual

/-- The super references in a child of `parent`. -/
def superSitesAt (parent : Node) : Node → List SuperSite
  | n@⟨kind, _, _, _, _, _, _, children⟩ =>
    if kind.isScope then []
    else if n.isSuperMember then ⟨n, parent⟩ :: superSitesUnder .index children
    else if n.isSuperCall then ⟨n, parent⟩ :: superSitesUnder .arguments children
    else superSitesAmong n children

/-- The super references in some children of `parent`. -/
def superSitesAmong (parent : Node) : List Node → List SuperSite
  | [] => []
  | n :: ns => superSitesAt parent n ++ superSitesAmong parent ns

/-- The super references below the first of the nodes that has a role. -/
def superSitesUnder (f : Field) : List Node → List SuperSite
  | [] => []
  | n@⟨_, field, _, _, _, _, _, children⟩ :: ns =>
    if field = some f then superSitesAmong n children else superSitesUnder f ns

end

/-- The super references below a node, leaving out the child that begins where `skip` does and is of
its kind. -/
def superSites (n : Node) (skip : Option Node) : List SuperSite :=
  superSitesAmong n <| n.children.filter fun c =>
    match skip with
    | some k => !(c.start == k.start && c.kind == k.kind)
    | none => true

mutual

/-- Evaluating the node reads `this` at once. Functions, classes and arrow functions put it off. -/
def evaluatesThis : Node → Bool
  | ⟨kind, _, _, _, _, _, _, children⟩ =>
    if kind = .thisKeyword then true
    else if kind.isScope || kind == .arrowFunction then false
    else anyEvaluatesThis children

/-- Evaluating one of the nodes reads `this` at once. -/
def anyEvaluatesThis : List Node → Bool
  | [] => false
  | n :: ns => n.evaluatesThis || anyEvaluatesThis ns

end

end Node

/-- What a super reference asks for. -/
inductive SuperTarget where
  /-- The parent's constructor. -/
  | construction
  /-- A member whose name the text gives. -/
  | member (name : String)
  /-- A private name. -/
  | hidden
  /-- A member whose name is computed. -/
  | computed
deriving DecidableEq, Repr

/-- A super reference, the node it stands in, and what it asks for. -/
structure SuperReference where
  node : Node
  parent : Node
  target : SuperTarget

/-- What is done with the member that is asked for. -/
inductive SuperUse where
  | read
  | write
  /-- Reading and writing in one step, such as `+=` and `++`. -/
  | compound
deriving DecidableEq, Repr

/-- A reference on the left of an assignment is written to; one in a compound assignment or an
increment is read and written. -/
def SuperReference.use (r : SuperReference) : SuperUse :=
  match r.parent.kind with
  | .assignment =>
    match r.parent.child? .left with
    | some left => if left.coincides r.node then .write else .read
    | none => .read
  | .augmentedAssignment | .update => .compound
  | _ => .read

namespace Script

variable (s : Script)

/-- What a super reference asks for. -/
def superTarget (n : Node) : Attempt SuperTarget :=
  match n.kind with
  | .callExpression => .ok .construction
  | .memberExpression =>
    match n.child? .property with
    | none => .ok .computed
    | some p =>
      if p.kind = .privatePropertyIdentifier then .ok .hidden
      else return .member (← s.text p)
  | _ =>
    match n.child? .index with
    | some index =>
      if index.kind = .stringLiteral then return .member (← s.literalText index) else .ok .computed
    | none => .ok .computed

/-- The references at some nodes, each with what it asks for. -/
def readReferences : List Node.SuperSite → Attempt (List SuperReference)
  | [] => .ok []
  | p :: ps => do
    let target ← s.superTarget p.node
    let rest ← readReferences ps
    return ⟨p.node, p.parent, target⟩ :: rest

/-- The super references below a node, leaving out the child `skip`. -/
def referencesIn (n : Node) (skip : Option Node) : Attempt (List SuperReference) :=
  s.readReferences (n.superSites skip)

end Script

end Disinherit
