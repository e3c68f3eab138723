import Disinherit.Member.Basic

/-!
# The members of a class by category

A value of `Members` keeps members in ten categories, each in the order of declaration, and the
constructor apart. `Members.toList` lists them in the order in which a class is written out: static
members first, then instance fields, the constructor, accessors and methods.

There is at most one constructor: inserting one replaces it, and finding or erasing a constructor
disregards the rest of the identity. `Members.declare` inserts a member in place of an earlier one
with the same identity; static blocks never replace each other.

All operations go through `inCategory` and `put`, which obey `inCategory_put` and `constructor_put`.
-/

namespace Disinherit

/-- The categories of members other than the constructor. -/
inductive Category where
  | staticPrivateField
  | staticPublicField
  | staticBlock
  | staticPrivateMethod
  | staticPublicMethod
  | privateField
  | publicField
  | accessor
  | privateMethod
  | publicMethod
deriving DecidableEq, Repr

namespace Category

/-- The categories that are written out before the constructor. -/
def beforeConstructor : List Category :=
  [staticPrivateField, staticPublicField, staticBlock, staticPrivateMethod, staticPublicMethod,
    privateField, publicField]

/-- The categories that are written out after the constructor. -/
def afterConstructor : List Category :=
  [accessor, privateMethod, publicMethod]

/-- All categories in the order in which they are written out. -/
def all : List Category :=
  beforeConstructor ++ afterConstructor

/-- The categories that can hold methods and accessors. -/
def onPrototype : List Category :=
  [accessor, staticPrivateMethod, staticPublicMethod, privateMethod, publicMethod]

end Category

/-- The category of members with an identity. -/
def Identity.category (i : Identity) : Category :=
  match i.kind, i.isStatic, i.visibility with
  | .staticBlock, _, _ => .staticBlock
  | .getter, _, _ | .setter, _, _ => .accessor
  | .field, true, .priv => .staticPrivateField
  | .field, true, .pub => .staticPublicField
  | .field, false, .priv => .privateField
  | .field, false, .pub => .publicField
  | _, true, .priv => .staticPrivateMethod
  | _, true, .pub => .staticPublicMethod
  | _, false, .priv => .privateMethod
  | _, false, .pub => .publicMethod

/-- Members by category, and the constructor. -/
structure Members where
  constructor : Option Member := none
  staticPrivateFields : List Member := []
  staticPublicFields : List Member := []
  staticBlocks : List Member := []
  staticPrivateMethods : List Member := []
  staticPublicMethods : List Member := []
  privateFields : List Member := []
  publicFields : List Member := []
  accessors : List Member := []
  privateMethods : List Member := []
  publicMethods : List Member := []

namespace Members

/-- No members. -/
def empty : Members := {}

instance : EmptyCollection Members := ⟨empty⟩

instance : Inhabited Members := ⟨empty⟩

/-- The members of a category, in the order of declaration. -/
def inCategory (s : Members) : Category → List Member
  | .staticPrivateField => s.staticPrivateFields
  | .staticPublicField => s.staticPublicFields
  | .staticBlock => s.staticBlocks
  | .staticPrivateMethod => s.staticPrivateMethods
  | .staticPublicMethod => s.staticPublicMethods
  | .privateField => s.privateFields
  | .publicField => s.publicFields
  | .accessor => s.accessors
  | .privateMethod => s.privateMethods
  | .publicMethod => s.publicMethods

/-- Exchanges the members of one category. -/
def put (s : Members) (c : Category) (ms : List Member) : Members :=
  match c with
  | .staticPrivateField => { s with staticPrivateFields := ms }
  | .staticPublicField => { s with staticPublicFields := ms }
  | .staticBlock => { s with staticBlocks := ms }
  | .staticPrivateMethod => { s with staticPrivateMethods := ms }
  | .staticPublicMethod => { s with staticPublicMethods := ms }
  | .privateField => { s with privateFields := ms }
  | .publicField => { s with publicFields := ms }
  | .accessor => { s with accessors := ms }
  | .privateMethod => { s with privateMethods := ms }
  | .publicMethod => { s with publicMethods := ms }

@[simp] theorem inCategory_put (s : Members) (c d : Category) (ms : List Member) :
    (s.put c ms).inCategory d = if d = c then ms else s.inCategory d := by
  cases c <;> cases d <;> rfl

@[simp] theorem constructor_put (s : Members) (c : Category) (ms : List Member) :
    (s.put c ms).constructor = s.constructor := by
  cases c <;> rfl

@[simp] theorem inCategory_empty (c : Category) : empty.inCategory c = [] := by
  cases c <;> rfl

/-- The lists of all categories, in the order in which they are written out. -/
def byCategory (s : Members) : List (List Member) :=
  Category.all.map s.inCategory

/-- All members in the order in which they are written out. -/
def toList (s : Members) : List Member :=
  Category.beforeConstructor.flatMap s.inCategory ++ s.constructor.toList
    ++ Category.afterConstructor.flatMap s.inCategory

/-- The number of members. -/
def size (s : Members) : Nat := s.toList.length

/-- The identities of all members, in the order in which they are written out. -/
def identities (s : Members) : List Identity :=
  s.toList.map (·.identity)

/-- Puts a member at the end of its category. A constructor takes the place of the one before. -/
def insert (s : Members) (m : Member) : Members :=
  if m.kind = .constructor then { s with constructor := some m }
  else s.put m.identity.category (s.inCategory m.identity.category ++ [m])

/-- The first member with an identity. -/
def find? (s : Members) (i : Identity) : Option Member :=
  if i.kind = .constructor then s.constructor
  else (s.inCategory i.category).find? (·.identity = i)

/-- Leaves out the first member with an identity. -/
def erase (s : Members) (i : Identity) : Members :=
  if i.kind = .constructor then { s with constructor := none }
  else s.put i.category ((s.inCategory i.category).eraseP (·.identity = i))

/-- A method or accessor of a property that someone other than `keeper` owns. -/
def isDisplaced (property : PropertyKey) (keeper : String) (m : Member) : Bool :=
  m.kind.onPrototype && m.identity.property == property && m.owner != keeper

/-- Leaves out the methods and accessors of a property, save those that `keeper` owns. -/
def vacate (s : Members) (property : PropertyKey) (keeper : String) : Members :=
  Category.onPrototype.foldl
    (fun t c => t.put c ((t.inCategory c).filter fun m => !isDisplaced property keeper m)) s

/-- Inserts a member in place of an earlier one with its identity. -/
def declare (s : Members) (m : Member) : Members :=
  if m.kind = .staticBlock then s.insert m else (s.erase m.identity).insert m

/-- The members of a class body, given its declarations in order. -/
def ofDeclarations (ms : List Member) : Members :=
  ms.foldl declare ∅

end Members

end Disinherit
