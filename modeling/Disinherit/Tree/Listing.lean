import Disinherit.Tree.Node

/-!
# Flat listings of trees

A parser hands a tree over as a `Listing`: one row per node, each node before its children, with the
number of children in the row. `Listing.tree?` puts the tree together again. It reads the rows from
the last to the first and keeps the finished trees on a stack: when a row is reached, the trees of
its children are the topmost ones.

`Node.listing` is the way back, and `Listing.tree?_listing` says that a tree survives the round
trip.
-/

namespace Disinherit

/-- A node without its children. -/
structure Row where
  kind : Kind
  field : Option Field
  named : Bool
  missing : Bool
  erroneous : Bool
  start : Nat
  stop : Nat
  arity : Nat
deriving Repr

/-- The node of a row, given its children. -/
def Row.node (r : Row) (children : List Node) : Node :=
  ⟨r.kind, r.field, r.named, r.missing, r.erroneous, r.start, r.stop, children⟩

/-- Reads a row from its six columns: kind, field (empty if there is none), flags, start, stop and
number of children. The flags are 1 for a named node, 2 for a missing one and 4 for a faulty one,
added up. -/
def Row.ofColumns? : List String → Option Row
  | [kind, field, flags, start, stop, arity] => do
    let flags ← flags.toNat?
    let start ← start.toNat?
    let stop ← stop.toNat?
    let arity ← arity.toNat?
    return ⟨.ofName kind, if field = "" then none else some (.ofLabel field), flags.testBit 0,
      flags.testBit 1, flags.testBit 2, start, stop, arity⟩
  | _ => none

/-- The rows of a tree, each node before its children. -/
abbrev Listing := List Row

namespace Listing

/-- The finished trees in front of which the rows stand, topmost first. -/
def stack (rows : Listing) (done : List Node) : List Node :=
  rows.foldr (fun r trees => r.node (trees.take r.arity) :: trees.drop r.arity) done

/-- The tree that the rows list. -/
def tree? (rows : Listing) : Option Node :=
  (stack rows []).head?

/-- Reads a listing with a row to a line and tabs between the columns. -/
def ofText? (text : String) : Option Listing :=
  ((text.splitOn "\n").filter (· ≠ "")).mapM fun line => Row.ofColumns? (line.splitOn "\t")

theorem stack_append (rows rows' : Listing) (done : List Node) :
    stack (rows ++ rows') done = stack rows (stack rows' done) := by
  simp [stack]

end Listing

namespace Node

mutual

/-- The rows of a tree. -/
def listing : Node → Listing
  | ⟨kind, field, named, missing, erroneous, start, stop, children⟩ =>
    ⟨kind, field, named, missing, erroneous, start, stop, children.length⟩ :: listingAll children

/-- The rows of several trees. -/
def listingAll : List Node → Listing
  | [] => []
  | n :: ns => n.listing ++ listingAll ns

end

end Node

namespace Listing

mutual

theorem stack_listing : ∀ (n : Node) (done : List Node), stack n.listing done = n :: done
  | ⟨_, _, _, _, _, _, _, children⟩, done => by
    have h := stack_listingAll children done
    simp only [Node.listing]
    rw [show ∀ (r : Row) (rs : Listing), stack (r :: rs) done
      = r.node ((stack rs done).take r.arity) :: (stack rs done).drop r.arity from fun _ _ => rfl]
    simp [h, Row.node]

theorem stack_listingAll : ∀ (ns : List Node) (done : List Node),
    stack (Node.listingAll ns) done = ns ++ done
  | [], _ => rfl
  | n :: ns, done => by
    rw [Node.listingAll, stack_append, stack_listingAll ns, stack_listing n]
    rfl

end

/-- A tree can be read back from its rows. -/
theorem tree?_listing (n : Node) : tree? n.listing = some n := by
  simp [tree?, stack_listing]

end Listing

end Disinherit
