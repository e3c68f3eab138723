import Disinherit.Tree.Kind

/-!
# Syntax nodes

A `Node` is a syntax tree: its kind, its role in the parent, whether it is a named node of the
grammar, whether the parser had to invent it (`missing`), whether there is a fault somewhere in it
(`erroneous`), its byte range and its children.

`Node.child?` finds a child by its role, `Node.hasWord` an anonymous token, and `Node.preorder`
lists a tree, each node before its children. `Node.firstFault?` is the node at which a faulty tree
is reported.
-/

namespace Disinherit

/-- A syntax tree. -/
structure Node where
  kind : Kind
  field : Option Field
  named : Bool
  missing : Bool
  erroneous : Bool
  start : Nat
  stop : Nat
  children : List Node
deriving Repr

namespace Node

/-- The tree of the empty text. -/
def empty : Node := ⟨.other "program", none, true, false, false, 0, 0, []⟩

instance : Inhabited Node := ⟨empty⟩

/-- The children that are named nodes. -/
def namedChildren (n : Node) : List Node :=
  n.children.filter (·.named)

/-- The first child with a role. -/
def child? (n : Node) (f : Field) : Option Node :=
  n.children.find? fun c => c.field == some f

/-- An anonymous token of the given kind. -/
def isWord (n : Node) (k : Kind) : Bool :=
  n.kind == k && !n.named

/-- A child of `n` that starts before `before`, where one is given, is the token `k`. -/
def hasWord (n : Node) (k : Kind) (before : Option Node) : Bool :=
  let children := match before with
    | none => n.children
    | some b => n.children.takeWhile fun c => decide (c.start < b.start)
  children.any (·.isWord k)

/-- Two nodes of one tree with the same kind and range. -/
def coincides (a b : Node) : Bool :=
  a.start == b.start && a.stop == b.stop && a.kind == b.kind

mutual

/-- A node and all below it, each node before its children. -/
def preorder : Node → List Node
  | n@⟨_, _, _, _, _, _, _, children⟩ => n :: preorderAll children

/-- The nodes of several trees. -/
def preorderAll : List Node → List Node
  | [] => []
  | n :: ns => n.preorder ++ preorderAll ns

end

/-- A node that is itself at fault. -/
def isFault (n : Node) : Bool :=
  n.kind == .errorNode || n.missing

mutual

/-- The node to blame for a faulty tree: the first that is itself at fault, looking only into
subtrees marked as erroneous, or else the last marked node on the way down. -/
def firstFault? : Node → Option Node
  | n@⟨_, _, _, _, erroneous, _, _, children⟩ =>
    if n.isFault then some n
    else if erroneous then some ((firstFaultAmong? children).getD n)
    else none

/-- The first fault found in a list of trees. -/
def firstFaultAmong? : List Node → Option Node
  | [] => none
  | n :: ns => n.firstFault?.or (firstFaultAmong? ns)

end

end Node

end Disinherit
