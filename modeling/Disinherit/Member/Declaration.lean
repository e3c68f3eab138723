import Disinherit.Member.Members

/-!
# Declarations in a class body

`Script.identity?` tells which member a node in a class body declares, if any, and
`Script.declarations` reads a body from top to bottom. A comment belongs to the member before it if
it is the first comment after that member and starts on the line where the member ends; every other
comment belongs to the member that follows.

`Script.membersOf` collects the declarations of a class: of several with the same identity the last
one counts.
-/

namespace Disinherit

namespace Script

variable (s : Script)

/-- Name and visibility of a member, read off the node of its name. -/
def nameAndVisibility (n : Node) : Attempt (String × Visibility) :=
  match n.kind with
  | .privatePropertyIdentifier => return (← s.text n, .priv)
  | .stringLiteral => return (← s.literalText n, .pub)
  | _ => return (← s.text n, .pub)

/-- Whether a method is static, and its kind, told by the words before its name. -/
def methodKind (n nameNode : Node) (name : String) : Bool × MemberKind :=
  let has (k : Kind) := n.hasWord k (some nameNode)
  let isStatic := has .staticGetToken || has .staticToken
  if has .staticGetToken || has .getToken then (isStatic, .getter)
  else if has .setToken then (isStatic, .setter)
  else if name = "constructor" ∧ ¬ isStatic
      ∧ (nameNode.kind = .propertyIdentifier ∨ nameNode.kind = .stringLiteral) then
    (false, .constructor)
  else (isStatic, .method)

/-- The identity of the member that a node in a class body declares. -/
def identity? (n : Node) : Attempt (Option Identity) :=
  match n.kind with
  | .staticBlock => .ok (some .staticBlock)
  | .fieldDefinition =>
    match n.child? .property with
    | none => .ok none
    | some property => do
      let (name, visibility) ← s.nameAndVisibility property
      return some ⟨n.hasWord .staticToken (some property), .field, visibility, name⟩
  | .methodDefinition =>
    match n.child? .name with
    | none => .ok none
    | some nameNode => do
      let (name, visibility) ← s.nameAndVisibility nameNode
      let (isStatic, kind) := methodKind n nameNode name
      return some ⟨isStatic, kind, visibility, name⟩
  | _ => .ok none

/-- The member that a node in a class body declares. -/
def member? (owner : String) (leading : List Node) (n : Node) : Attempt (Option Member) := do
  match ← s.identity? n with
  | none => return none
  | some identity =>
    let references ← s.referencesIn n n.memberName?
    return some { identity, owner, node := n, leading, references }

/-- The last member, if a comment follows it on its last line and no other comment came before. -/
def trailed? (last : Option Member) (waiting : List Node) (comment : Node) : Option Member :=
  last.filter fun m => m.trailing.isNone && waiting.isEmpty
    && s.source.row comment.start == s.source.row m.node.stop

/-- The declarations in the rest of a class body, when `last` is the member before it and the
comments in `waiting` do not belong to it. -/
def declarationsFrom (owner : String) (last : Option Member) (waiting : List Node) :
    List Node → Attempt (List Member)
  | [] => .ok last.toList
  | n :: ns =>
    if n.kind = .comment then
      match s.trailed? last waiting n with
      | some m => declarationsFrom owner (some { m with trailing := some n }) waiting ns
      | none => declarationsFrom owner last (waiting ++ [n]) ns
    else do
      match ← s.member? owner waiting n with
      | none => declarationsFrom owner last waiting ns
      | some m =>
        let rest ← declarationsFrom owner (some m) [] ns
        return last.toList ++ rest

/-- The declarations in a class body, in the order of the text. -/
def declarations (owner : String) (items : List Node) : Attempt (List Member) :=
  s.declarationsFrom owner none [] items

/-- The members of a class. -/
def membersOf (cls : Node) (owner : String) : Attempt Members :=
  return .ofDeclarations (← s.declarations owner cls.bodyItems)

end Script

end Disinherit
