import Disinherit.Member.Basic
import Disinherit.Table

/-!
# Names for copied members

A member that is copied from an ancestor needs a name of its own in the flattened class. Its first
choice is `_super_<Owner>_<name>`, with every character that cannot stand in an identifier replaced
by an underscore (`copyName`). Different members may share a first choice, and the class may already
have a member of that name, so a `NameTable` keeps track: `NameTable.grant` gives out the first free
name among `base`, `base_2`, `base_3`, and so on, and gives the same name to the same owner and
property ever after. Static and other members have separate names.

The getter and the setter of a property share a name, because names are given to properties.
-/

namespace Disinherit

/-- A character that may stand anywhere in an ASCII identifier. -/
def isWordChar (c : Char) : Bool :=
  c.isAlphanum || c == '_' || c == '$'

/-- The first choice for the name of a copied member. -/
def copyName (owner name : String) : String :=
  "_super_" ++ owner ++ "_"
    ++ String.ofList (name.toList.map fun c => if isWordChar c then c else '_')

/-- The choices for a name: the base, then the base with the numbers from two on. -/
def candidate (base : String) : Nat → String
  | 0 => base
  | n + 1 => base ++ "_" ++ toString (n + 2)

/-- The first of the choices from the `n`-th on that is not taken. A choice that is taken need not
be looked for again, since all choices differ. -/
def firstFree (base : String) (taken : List String) (n : Nat) : String :=
  if h : candidate base n ∈ taken then
    have : (taken.erase (candidate base n)).length < taken.length := by
      rw [List.length_erase_of_mem h]
      exact Nat.sub_lt (List.length_pos_of_mem h) Nat.one_pos
    firstFree base (taken.erase (candidate base n)) (n + 1)
  else candidate base n
termination_by taken.length

/-- The names in use in a flattened class. -/
structure NameTable where
  /-- The names given out, by owner and property. -/
  granted : Table (String × PropertyKey) String := []
  /-- The names in use, static (`true`) and other. -/
  taken : List (Bool × String) := []
deriving Repr

namespace NameTable

/-- The names that the members of a class take up. -/
def ofMembers (ms : List Member) : NameTable where
  taken := (ms.filter (·.kind ≠ .staticBlock)).map fun m => (m.identity.isStatic, m.name)

/-- The names in use among static or among other members. -/
def takenAs (t : NameTable) (isStatic : Bool) : List String :=
  (t.taken.filter (·.1 = isStatic)).map (·.2)

/-- Gives a name to an owner and property, once and for all. -/
def grant (t : NameTable) (owner : String) (property : PropertyKey) : String × NameTable :=
  match t.granted.get? (owner, property) with
  | some name => (name, t)
  | none =>
    let name := firstFree (copyName owner property.name) (t.takenAs property.isStatic) 0
    (name, ⟨t.granted.put (owner, property) name, t.taken ++ [(property.isStatic, name)]⟩)

end NameTable

end Disinherit
