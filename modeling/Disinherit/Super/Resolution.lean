import Disinherit.Super.Constructors

/-!
# Resolved classes

`Script.resolve` makes a `Resolution` of a lineage: the members in effect, the constructor, the
copies of ancestors' members and the methods made of ancestors' constructors, each with the edits
that free it from `super`. A class that stands alone and extends nothing is left as it is.

`Resolution.excerpts` lists everything in the order in which it is written out.
-/

namespace Disinherit

/-- Everything that a flattened class consists of. -/
structure Resolution where
  target : String
  /-- The members in effect; the constructor among them only marks its place. -/
  members : List Excerpt
  constructor : Option Excerpt
  copies : List Excerpt := []
  constructorCopies : List Excerpt := []
  diagnostics : List Diagnostic := []
  events : List Event := []

/-- All excerpts in the order in which they are written out. -/
def Resolution.excerpts (c : Resolution) : List Excerpt :=
  (c.members.flatMap fun e =>
    if e.member.kind = .constructor then c.constructor.toList else [e])
    ++ c.copies ++ c.constructorCopies

/-- There may be something to resolve: the class has ancestors, or extends something unknown. -/
def Lineage.isActive (l : Lineage) : Bool :=
  decide (1 < l.ancestry.length) || !l.hasRoot

/-- The excerpts for members, with edits for all but the constructor. -/
def excerptMembers (s : Script) (l : Lineage) :
    List Member → Progress → List Excerpt × Progress
  | [], p => ([], p)
  | m :: ms, p =>
    let resolved := if m.kind = .constructor then ([], p) else resolveMember s l m p
    let others := excerptMembers s l ms resolved.2
    ({ member := m, edits := resolved.1 } :: others.1, others.2)

/-- Frees the members of a lineage from references to ancestors. -/
def Script.resolve (s : Script) (l : Lineage) : Resolution :=
  if l.isActive then
    let members := excerptMembers s l l.members.toList (.start l)
    let constructors := chainConstructors s l members.2
    { target := l.target
      members := members.1
      constructor := constructors.1.getLast?
      copies := constructors.2.copies
      constructorCopies := constructors.1.dropLast
      diagnostics := constructors.2.diagnostics ++ fieldOrderFindings s l
      events := constructors.2.events }
  else
    { target := l.target
      members := l.members.toList.map fun m => { member := m }
      constructor := l.members.constructor.map fun m => { member := m } }

end Disinherit
