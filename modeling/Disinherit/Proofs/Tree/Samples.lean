import Disinherit.Tree.Node

/-!
# Sample trees

Builders for the small trees on which statements are tried out: classes with names of one letter,
their members, and references in them. Each takes the offsets at which its parts stand, so that a
tree can be read next to its text.
-/

namespace Disinherit

namespace Node

/-- A node of the grammar, as the parser makes it from a text without faults. -/
def sound (kind : Kind) (field : Option Field) (start stop : Nat) (children : List Node) : Node :=
  ⟨kind, field, true, false, false, start, stop, children⟩

/-! ### Classes and members -/

/-- A class with a name of one letter, and after `extends` perhaps another such name. -/
def shortClass (start body stop : Nat) (heritage members : List Node) : Node :=
  .sound .classDeclaration none start stop <|
    .sound .identifier (some .name) (start + 6) (start + 7) [] :: heritage
      ++ [.sound (.other "class_body") (some .body) body stop members]

/-- `extends` with a name of one letter. -/
def shortHeritage (start : Nat) : Node :=
  .sound .classHeritage none start (start + 9)
    [.sound .identifier none (start + 8) (start + 9) []]

/-- A method or accessor: some words, its name from `name` to `parameters`, where `()` follows, and
its statements. -/
def shortMethod (start name parameters stop : Nat) (words statements : List Node) : Node :=
  .sound .methodDefinition (some (.other "member")) start stop <| words ++
    [.sound .propertyIdentifier (some .name) name parameters [],
      .sound (.other "formal_parameters") (some (.other "parameters")) parameters
        (parameters + 2) [],
      .sound (.other "statement_block") (some .body) (parameters + 2) stop statements]

/-- A field: some words, its name from `name` to `value`, where `=` follows, and a digit. -/
def shortField (nameKind : Kind) (start name value stop : Nat) (words : List Node) : Node :=
  .sound .fieldDefinition (some (.other "member")) start stop <| words ++
    [.sound nameKind (some .property) name value [],
      .sound (.other "number") (some .value) (value + 1) stop []]

/-- The word `static`. -/
def staticWord (start : Nat) : Node :=
  ⟨.staticToken, none, false, false, false, start, start + 6, []⟩

/-- The word `get`. -/
def getWord (start : Nat) : Node :=
  ⟨.getToken, none, false, false, false, start, start + 3, []⟩

/-! ### References -/

/-- The expression `super.x` for a name of one letter. -/
def shortReference (field : Option Field) (start : Nat) : Node :=
  .sound .memberExpression field start (start + 7)
    [.sound .superKeyword (some .object) start (start + 5) [],
      .sound .propertyIdentifier (some .property) (start + 6) (start + 7) []]

/-- The statement `super.x` for a name of one letter. -/
def shortSuper (start : Nat) : Node :=
  .sound .expressionStatement none start (start + 7) [.shortReference none start]

/-- The statement `super()`. -/
def shortSuperCall (start : Nat) : Node :=
  .sound .expressionStatement none start (start + 7)
    [.sound .callExpression none start (start + 7)
      [.sound .superKeyword (some .function) start (start + 5) [],
        .sound (.other "arguments") (some .arguments) (start + 5) (start + 7) []]]

end Node

end Disinherit
