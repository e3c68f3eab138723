import Disinherit.Event
import Disinherit.Lineage
import Disinherit.Super.Names

/-!
# Copies of ancestors' members

A flattened class has no parent, so `super.x` has to go. `Lineage.verdict` decides on one reference:
either it names a member of a strict ancestor, or it stays and a diagnostic says why (`Unresolved`).
The ancestor's member is then copied into the class under a name of its own, and the reference
becomes `this.<name>`. A copy may hold references in turn; they lead to copies from classes still
nearer to the base, which is why `provideCopy` comes to an end.

What has been done so far is a `Progress`: names, copies in the order in which they were found,
diagnostics (one for each place in the text) and events.
-/

namespace Disinherit

/-- A member to be written out: the declaration it is cut from, the edits to apply, and its new name
if it is a copy. -/
structure Excerpt where
  member : Member
  edits : List Edit := []
  rename : Option String := none

/-- Why a reference is left as it is. -/
inductive Unresolved where
  | computed
  | hidden
  | compound (name : String)
  | unknown (name : String)
deriving DecidableEq, Repr

/-- The wording, given the label of the member that holds the reference. -/
def Unresolved.message (label : String) : Unresolved → String
  | computed => "super member in " ++ label ++ " is computed and cannot be resolved statically"
  | hidden => "super member in " ++ label ++ " is private and not reachable through super"
  | compound name =>
    "compound assignment to super." ++ name ++ " in " ++ label ++ " cannot be rewritten"
  | unknown name =>
    "super." ++ name ++ " in " ++ label ++ " has no ancestor implementation; left unrewritten"

/-- What becomes of a reference. -/
inductive Verdict where
  /-- A constructor call, which is no concern of members. -/
  | construction
  | unresolved (why : Unresolved)
  /-- The reference leads to a copy of `entry`. -/
  | copy (entry : Member)

namespace Lineage

variable (l : Lineage)

/-- The ancestor's member that a reference in a member of `owner` reaches: a setter for writing, a
method or else a getter for reading. -/
def referent? (name : String) (use : SuperUse) (isStatic : Bool) (owner : String) : Option Member :=
  let entry (kind : MemberKind) := l.nearestAbove? ⟨isStatic, kind, .pub, name⟩ owner
  match use with
  | .write => entry .setter
  | _ => (entry .method).or (entry .getter)

/-- What becomes of a reference in a member. -/
def verdict (m : Member) (r : SuperReference) : Verdict :=
  match r.target with
  | .construction => .construction
  | .computed => .unresolved .computed
  | .hidden => .unresolved .hidden
  | .member name =>
    if r.use = .compound then .unresolved (.compound name)
    else
      match l.referent? name r.use m.identity.isStatic m.owner with
      | some entry => .copy entry
      | none => .unresolved (.unknown name)

theorem rank_referent? {name : String} {use : SuperUse} {isStatic : Bool} {owner : String}
    {entry : Member} (h : l.referent? name use isStatic owner = some entry) :
    l.rank entry.owner < l.rank owner := by
  unfold referent? at h
  split at h
  · exact l.rank_nearestAbove? h
  · rcases Option.or_eq_some_iff.1 h with h | ⟨-, h⟩ <;> exact l.rank_nearestAbove? h

/-- What is copied belongs to a class nearer to the base. -/
theorem rank_verdict {m : Member} {r : SuperReference} {entry : Member}
    (h : l.verdict m r = .copy entry) : l.rank entry.owner < l.rank m.owner := by
  unfold verdict at h
  split at h <;> try contradiction
  split at h <;> try contradiction
  split at h <;> try contradiction
  next hreferent =>
    obtain rfl := Verdict.copy.inj h
    exact l.rank_referent? hreferent

end Lineage

/-- The edit that gives a member a new name. -/
def Member.renameEdits (m : Member) (name : String) : List Edit :=
  match m.nameNode? with
  | some n => [⟨n.start, n.stop, name⟩]
  | none => []

/-- What has been done for a flattened class so far. -/
structure Progress where
  names : NameTable
  /-- The copies, in the order in which they were found to be needed. -/
  copies : List Excerpt := []
  diagnostics : List Diagnostic := []
  /-- The offsets of the references that were reported. -/
  reported : List Nat := []
  events : List Event := []

namespace Progress

/-- The state of things before any reference was looked at. -/
def start (l : Lineage) : Progress where
  names := .ofMembers l.members.toList

/-- Gives a name to an owner and property. -/
def grant (p : Progress) (target owner : String) (property : PropertyKey) : String × Progress :=
  let base := copyName owner property.name
  let granted := p.names.grant owner property
  let isNew := (p.names.granted.get? (owner, property)).isNone
  let events := if isNew && granted.1 != base then [Event.nameTaken target base granted.1] else []
  (granted.1, { p with names := granted.2, events := p.events ++ events })

/-- Reports a reference that stays, unless it was reported before. -/
def report (p : Progress) (s : Script) (target : String) (m : Member) (r : SuperReference)
    (why : Unresolved) : Progress :=
  if r.node.start ∈ p.reported then p
  else { p with
    reported := p.reported ++ [r.node.start]
    diagnostics := p.diagnostics ++ [Diagnostic.located (s.position r.node) .unresolvedSuperCall
      [target, m.owner] (why.message m.label)] }

/-- Two members are the same declaration of a lineage. -/
def isCopyOf (entry : Member) (c : Excerpt) : Bool :=
  c.member.owner == entry.owner && c.member.identity == entry.identity

/-- The name of the copy of a member. -/
def copyOf? (p : Progress) (entry : Member) : Option String :=
  (p.copies.find? (isCopyOf entry)).bind (·.rename)

/-- Starts a copy, of which only the name is settled. -/
def openCopy (p : Progress) (target : String) (entry : Member) : String × Progress :=
  let granted := p.grant target entry.owner entry.identity.property
  (granted.1, { granted.2 with
    copies := p.copies ++ [⟨entry, entry.renameEdits granted.1, some granted.1⟩]
    events := granted.2.events ++ [.copied target granted.1 entry.owner] })

/-- Adds the edits inside a copy. -/
def closeCopy (p : Progress) (entry : Member) (edits : List Edit) : Progress :=
  { p with copies := p.copies.map fun c =>
      if isCopyOf entry c then { c with edits := c.edits ++ edits } else c }

end Progress

/-- The edits for some references in a member, in order, when `provide` makes sure that there is a
copy of an ancestor's member and gives its name. -/
def resolveWith (s : Script) (l : Lineage) (m : Member)
    (provide : (entry : Member) → l.rank entry.owner < l.rank m.owner → Progress →
      String × Progress) :
    List SuperReference → Progress → List Edit × Progress
  | [], p => ([], p)
  | r :: rest, p =>
    match h : l.verdict m r with
    | .construction => resolveWith s l m provide rest p
    | .unresolved why => resolveWith s l m provide rest (p.report s l.target m r why)
    | .copy entry =>
      let copy := provide entry (l.rank_verdict h) p
      let others := resolveWith s l m provide rest copy.2
      (⟨r.node.start, r.node.stop, "this." ++ copy.1⟩ :: others.1, others.2)

/-- The name of the copy of a member, which is made if it is not there yet. -/
def provideCopy (s : Script) (l : Lineage) (entry : Member) (p : Progress) : String × Progress :=
  match p.copyOf? entry with
  | some name => (name, p)
  | none =>
    let opened := p.openCopy l.target entry
    let inside := resolveWith s l entry (fun e _ q => provideCopy s l e q) entry.references opened.2
    (opened.1, inside.2.closeCopy entry inside.1)
termination_by l.rank entry.owner

/-- The edits for some references in a member, in order, with all the copies that they call for. -/
def resolveAll (s : Script) (l : Lineage) (m : Member) (references : List SuperReference)
    (p : Progress) : List Edit × Progress :=
  resolveWith s l m (fun entry _ q => provideCopy s l entry q) references p

/-- A copy that is not there yet is opened, its references are resolved, and it is closed. -/
theorem provideCopy_of_none {s : Script} {l : Lineage} {entry : Member} {p : Progress}
    (h : p.copyOf? entry = none) :
    provideCopy s l entry p =
      let opened := p.openCopy l.target entry
      let inside := resolveAll s l entry entry.references opened.2
      (opened.1, inside.2.closeCopy entry inside.1) := by
  rw [provideCopy, h]
  rfl

/-- The edits for the references in a member. -/
def resolveMember (s : Script) (l : Lineage) (m : Member) (p : Progress) :
    List Edit × Progress :=
  resolveAll s l m m.references p

end Disinherit
