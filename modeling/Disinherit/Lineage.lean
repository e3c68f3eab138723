import Disinherit.Class.Registry

/-!
# Lineages

The lineage of a class is the class with all its ancestors, as far as the registry knows them.
`Registry.ancestry` lists them from the most distant one to the class itself; a walk that comes back
to a class it has seen ends there.

Merging the classes in this order gives what the class inherits. `Inherited.overlay` lays the
members of one class over those of its ancestors: a method or accessor takes its property from every
ancestor, any other member replaces the one with its identity. Nothing is forgotten: `history` keeps
all declarations of each identity, and `constructors` all constructors. `Lineage.nearestAbove?`
looks up the nearest declaration strictly above a class, and `rank_nearestAbove?` says that it is
nearer to the base.
-/

namespace Disinherit

/-- What the classes of a lineage declare, taken together. -/
structure Inherited where
  /-- The members that are in effect. -/
  members : Members := ∅
  /-- All declarations of each identity, most distant ancestor first. -/
  history : Table Identity (List Member) := []
  /-- All constructors, most distant ancestor first. -/
  constructors : List Member := []

namespace Inherited

/-- Adds one declaration to those of the ancestors. -/
def adopt (h : Inherited) (m : Member) : Inherited :=
  match m.kind with
  | .constructor => { h with constructors := h.constructors ++ [m] }
  | .staticBlock => { h with members := h.members.insert m }
  | _ => { h with
      members := (h.members.erase m.identity).insert m
      history := h.history.push m.identity m }

/-- The properties that the methods and accessors of a list define. -/
def propertiesTaken (ms : List Member) : List PropertyKey :=
  (ms.filter (·.kind.onPrototype)).map (·.identity.property)

/-- Takes properties from everyone but `owner`. -/
def clear (h : Inherited) (owner : String) (properties : List PropertyKey) : Inherited :=
  { h with members := properties.foldl (fun ms property => ms.vacate property owner) h.members }

/-- Lays the members of a class over those of its ancestors. -/
def overlay (h : Inherited) (d : ClassDecl) : Inherited :=
  let own := d.members.toList
  own.foldl adopt (h.clear d.name (propertiesTaken own))

end Inherited

namespace Registry

/-- The ancestors of `name` that are not in `seen`, most distant first, and the class itself. -/
def ancestryFrom (r : Registry) (seen : List String) (name : String) : List ClassDecl :=
  if met : name ∈ seen then []
  else
    match known : r.get? name with
    | none => []
    | some d =>
      match d.parent with
      | none => [d]
      | some parent =>
        have : (r.unseen (name :: seen)).length < (r.unseen seen).length :=
          unseen_lt known met (by simp [or_comm])
        ancestryFrom r (name :: seen) parent ++ [d]
termination_by (r.unseen seen).length

/-- The ancestors of a class, most distant first, and the class itself. -/
def ancestry (r : Registry) (name : String) : List ClassDecl :=
  r.ancestryFrom [] name

end Registry

/-- A class with its ancestors and all that they declare. -/
structure Lineage extends Inherited where
  target : String
  ancestry : List ClassDecl

/-- The lineage of a class. The constructor in effect is that of the nearest class that has one. -/
def Registry.lineage (r : Registry) (name : String) : Lineage :=
  let ancestry := r.ancestry name
  let inherited := ancestry.foldl Inherited.overlay {}
  { inherited with
    members := { inherited.members with constructor := inherited.constructors.getLast? }
    target := name
    ancestry }

namespace Lineage

variable (l : Lineage)

/-- The names of the classes, most distant ancestor first. -/
def chain : List String :=
  l.ancestry.map (·.name)

/-- The position of a class in the chain, counted from the most distant ancestor. -/
def generation? (owner : String) : Option Nat :=
  l.chain.idxOf? owner

/-- `owner` stands in the chain before position `limit`. -/
def isBefore (owner : String) (limit : Nat) : Bool :=
  match l.generation? owner with
  | some generation => decide (generation < limit)
  | none => false

/-- The nearest declaration of an identity strictly above `owner`. -/
def nearestAbove? (i : Identity) (owner : String) : Option Member :=
  match l.generation? owner with
  | none => none
  | some limit => ((l.history.get? i).getD []).reverse.find? fun m => l.isBefore m.owner limit

/-- The chain begins at a class that extends nothing. -/
def hasRoot : Bool :=
  match l.ancestry.head? with
  | some base => base.extendsText.isNone
  | none => false

/-- The class at which the walk along the parents came back to itself. -/
def closesAt? : Option String :=
  (l.ancestry.head?.bind (·.parent)).filter (l.chain.contains ·)

/-- The position of a class in the chain, zero for strangers. -/
def rank (owner : String) : Nat :=
  (l.generation? owner).getD 0

/-- A declaration above `owner` belongs to a class of smaller rank. -/
theorem rank_nearestAbove? {i : Identity} {owner : String} {m : Member}
    (h : l.nearestAbove? i owner = some m) : l.rank m.owner < l.rank owner := by
  unfold nearestAbove? at h
  split at h
  · contradiction
  · next limit hlimit =>
    have hbefore := List.find?_some h
    unfold isBefore at hbefore
    split at hbefore
    · next hgeneration => simpa [rank, hlimit, hgeneration] using hbefore
    · contradiction

end Lineage

end Disinherit
