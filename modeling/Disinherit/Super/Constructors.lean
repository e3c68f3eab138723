import Disinherit.Super.Copies

/-!
# Constructors of a flattened class

The constructors of a lineage are chained. The nearest one becomes the constructor of the flattened
class, every other one a method, and each `super(...)` call goes to the method made of the
constructor before it. Since `super(...)` is an expression whose value is `this`, a call that is not
a statement of its own becomes `(this.<name>(...), this)`.

At the base of the chain nothing is left to call. `baseCallEdits` keeps the arguments for their
effects where it can, as `void (...)`, and otherwise removes the statement (`Source.removalRange`)
or puts `this` in place of the call.

`fieldOrderFindings` reports fields whose initial value reads `this` although an ancestor's
constructor used to run first.
-/

namespace Disinherit

/-- The range to cut out in order to remove a statement: with its line, if it is alone on it, and
else with the blanks after it. -/
def Source.removalRange (s : Source) (start stop : Nat) : Nat × Nat :=
  let lineBegin := s.startOfLine start
  let blankBefore := (s.range lineBegin start).all Text.isBlankByte
  let after := (s.bytes.drop stop).takeWhile Text.isIndentByte
  let next := stop + after.length
  match s.bytes.drop next with
  | [] => if blankBefore then (lineBegin, s.size) else (start, next)
  | b :: rest =>
    if blankBefore && b == Text.lineFeed then (lineBegin, next + 1)
    else if blankBefore && b == Text.carriageReturn && rest.head? == some Text.lineFeed then
      (lineBegin, next + 2)
    else (start, next)

/-- What surrounds a `super(...)` call: the callee, the arguments, and whether the call is a
statement of its own. -/
structure SuperCall where
  node : Node
  callee : Node
  arguments : Node
  /-- The statement that consists of the call alone. -/
  statement? : Option Node

namespace SuperCall

/-- Reads a constructor call off a super reference. -/
def ofReference? (r : SuperReference) : Option SuperCall :=
  if r.target = .construction then
    match r.node.child? .function, r.node.child? .arguments with
    | some callee, some arguments =>
      some ⟨r.node, callee, arguments,
        if r.parent.kind = .expressionStatement then some r.parent else none⟩
    | _, _ => none
  else none

/-- The arguments are to be kept for their effects: there is something between the parentheses, be
it only a comment, and nothing is spread. -/
def keepsArguments (c : SuperCall) : Bool :=
  let arguments := c.arguments.namedChildren
  !arguments.isEmpty && arguments.all (·.kind != .spreadElement)

/-- Puts `text` in place of the callee, and adds what makes the value `this` unless the call is a
statement of its own, where the value is not used. -/
def calleeEdits (c : SuperCall) (text : String) : List Edit :=
  match c.statement? with
  | some _ => [⟨c.callee.start, c.callee.stop, text⟩]
  | none => [⟨c.callee.start, c.callee.stop, "(" ++ text⟩, ⟨c.node.stop, c.node.stop, ", this)"⟩]

/-- The edits for a call when there is nothing to call. -/
def baseCallEdits (s : Source) (c : SuperCall) : List Edit :=
  if c.keepsArguments then c.calleeEdits "void "
  else
    match c.statement? with
    | some stmt =>
      let span := s.removalRange stmt.start stmt.stop
      [⟨span.1, span.2, ""⟩]
    | none => [⟨c.node.start, c.node.stop, "this"⟩]

/-- The edits for a call, given the method that stands for the constructor before. -/
def edits (s : Source) (method? : Option String) (c : SuperCall) : List Edit :=
  match method? with
  | some method => c.calleeEdits ("this." ++ method)
  | none => c.baseCallEdits s

end SuperCall

/-- The edits for the constructor calls in a constructor. -/
def constructionEdits (s : Source) (method? : Option String) (m : Member) : List Edit :=
  (m.references.filterMap SuperCall.ofReference?).flatMap (SuperCall.edits s method?)

/-- The property that constructors made into methods take. -/
def constructorKey : PropertyKey := ⟨false, .pub, "constructor"⟩

/-- Names for the methods that some constructors become. -/
def grantConstructorNames (target : String) : List Member → Progress → List String × Progress
  | [], p => ([], p)
  | m :: ms, p =>
    let granted := p.grant target m.owner constructorKey
    let others := grantConstructorNames target ms granted.2
    (granted.1 :: others.1, others.2)

/-- The excerpts for a chain of constructors, each given with the name of its method if it becomes
one, when `method?` stands for the constructor before the first. -/
def chainFrom (s : Script) (l : Lineage) (method? : Option String) :
    List (Member × Option String) → Progress → List Excerpt × Progress
  | [], p => ([], p)
  | (m, name?) :: rest, p =>
    let references := resolveMember s l m p
    let renamed := (name?.map m.renameEdits).getD []
    let edits := references.1 ++ constructionEdits s.source method? m ++ renamed
    let others := chainFrom s l name? rest references.2
    (⟨m, edits, name?⟩ :: others.1, others.2)

/-- The excerpts for all constructors of a lineage. The last one keeps its name. -/
def chainConstructors (s : Script) (l : Lineage) (p : Progress) : List Excerpt × Progress :=
  let names := grantConstructorNames l.target l.constructors.dropLast p
  chainFrom s l none (l.constructors.zip (names.1.map some ++ [none])) names.2

/-- The constructor that used to run before the initial value of a field was computed. -/
def earlierConstructor? (l : Lineage) (m : Member) : Option Member :=
  match l.generation? m.owner with
  | some generation => l.constructors.find? fun c => l.isBefore c.owner generation
  | none => none

/-- A field of the instance whose initial value reads `this`. -/
def Member.isEagerField (m : Member) : Bool :=
  m.kind == .field && !m.identity.isStatic
    && ((m.node.child? .value).map Node.evaluatesThis).getD false

/-- The finding about a field, if there is one. -/
def fieldOrderFinding? (s : Script) (l : Lineage) (m : Member) : Option Diagnostic :=
  if m.isEagerField then
    (earlierConstructor? l m).map fun c =>
      Diagnostic.located (s.position m.node) .fieldInitializationOrder [l.target, m.owner, c.owner]
        ("initializer of " ++ m.label ++ " reads this and now runs before " ++ c.owner
          ++ ".constructor")
  else none

/-- The findings about the fields of a lineage. -/
def fieldOrderFindings (s : Script) (l : Lineage) : List Diagnostic :=
  l.members.toList.filterMap (fieldOrderFinding? s l)

end Disinherit
