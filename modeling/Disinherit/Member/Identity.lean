import Disinherit.Text.Blank

/-!
# Identities of class members

A class member is known by its `Identity`: static or not, its kind, public or private, and its name.
Two members of a lineage with equal identities are a declaration and its override. Methods and
accessors of one name share a `PropertyKey`, the property they define.

`Identity.render` shows an identity in words, such as `static method create`.
-/

namespace Disinherit

/-- The kinds of class members. -/
inductive MemberKind where
  | field
  | method
  | getter
  | setter
  | constructor
  | staticBlock
deriving DecidableEq, Repr

namespace MemberKind

/-- The word for a kind. -/
def label : MemberKind → String
  | field => "field"
  | method => "method"
  | getter => "getter"
  | setter => "setter"
  | constructor => "constructor"
  | staticBlock => "static-block"

/-- Methods, getters and setters live on the prototype (or on the class, when static), so that those
of one name share a property. -/
def onPrototype : MemberKind → Bool
  | method | getter | setter => true
  | _ => false

end MemberKind

/-- Who can see a member. -/
inductive Visibility where
  | pub
  | priv
deriving DecidableEq, Repr

/-- The word for a visibility. -/
def Visibility.label : Visibility → String
  | pub => "public"
  | priv => "private"

/-- A property of a class or of its instances. -/
structure PropertyKey where
  isStatic : Bool
  visibility : Visibility
  name : String
deriving DecidableEq, Repr

/-- What makes a member the same member along a lineage. A private name keeps its `#`. -/
structure Identity where
  isStatic : Bool
  kind : MemberKind
  visibility : Visibility
  name : String
deriving DecidableEq, Repr

namespace Identity

/-- The property that a method or an accessor defines. -/
def property (i : Identity) : PropertyKey :=
  ⟨i.isStatic, i.visibility, i.name⟩

/-- The identity in words. -/
def render (i : Identity) : String :=
  Text.trimEnd ((if i.isStatic then "static " else "") ++ i.kind.label ++ " " ++ i.name)

/-- The identity of every static block. -/
def staticBlock : Identity :=
  ⟨true, .staticBlock, .pub, ""⟩

end Identity

end Disinherit
