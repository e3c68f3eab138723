/-!
# Kinds of syntax nodes

A node of a JavaScript syntax tree has a kind, named as in the grammar: `class_declaration`,
`member_expression`, or for an anonymous token its text, such as `static` or `;`. The kinds that
matter when classes are flattened are constructors of `Kind`; every other name is kept in `other`.
The place of a node in its parent is a `Field`, treated the same way.

`Kind.ofName` reads a name and `Kind.name` gives it back (`Kind.name_ofName`).
-/

namespace Disinherit

/-- What a syntax node is. -/
inductive Kind where
  | classDeclaration
  /-- A class expression, or the keyword `class`. -/
  | classExpression
  | exportStatement
  | classHeritage
  | identifier
  | comment
  | staticBlock
  | fieldDefinition
  | methodDefinition
  | propertyIdentifier
  | privatePropertyIdentifier
  | stringLiteral
  | templateString
  | memberExpression
  | subscriptExpression
  | callExpression
  | superKeyword
  | thisKeyword
  | arrowFunction
  | functionDeclaration
  | functionExpression
  /-- The keyword `function`. -/
  | functionKeyword
  | generatorDeclaration
  | generatorExpression
  | assignment
  | augmentedAssignment
  | update
  | expressionStatement
  | spreadElement
  | staticToken
  /-- The two words `static get`, read as one token. -/
  | staticGetToken
  | getToken
  | setToken
  | defaultToken
  /-- A stretch of text that is not part of any statement. -/
  | errorNode
  | other (name : String)
deriving DecidableEq, Repr, Inhabited

namespace Kind

/-- The name of a kind in the grammar. -/
def name : Kind → String
  | classDeclaration => "class_declaration"
  | classExpression => "class"
  | exportStatement => "export_statement"
  | classHeritage => "class_heritage"
  | identifier => "identifier"
  | comment => "comment"
  | staticBlock => "class_static_block"
  | fieldDefinition => "field_definition"
  | methodDefinition => "method_definition"
  | propertyIdentifier => "property_identifier"
  | privatePropertyIdentifier => "private_property_identifier"
  | stringLiteral => "string"
  | templateString => "template_string"
  | memberExpression => "member_expression"
  | subscriptExpression => "subscript_expression"
  | callExpression => "call_expression"
  | superKeyword => "super"
  | thisKeyword => "this"
  | arrowFunction => "arrow_function"
  | functionDeclaration => "function_declaration"
  | functionExpression => "function_expression"
  | functionKeyword => "function"
  | generatorDeclaration => "generator_function_declaration"
  | generatorExpression => "generator_function"
  | assignment => "assignment_expression"
  | augmentedAssignment => "augmented_assignment_expression"
  | update => "update_expression"
  | expressionStatement => "expression_statement"
  | spreadElement => "spread_element"
  | staticToken => "static"
  | staticGetToken => "static get"
  | getToken => "get"
  | setToken => "set"
  | defaultToken => "default"
  | errorNode => "ERROR"
  | other name => name

/-- The kind with a given name. -/
def ofName (name : String) : Kind :=
  match name with
  | "class_declaration" => classDeclaration
  | "class" => classExpression
  | "export_statement" => exportStatement
  | "class_heritage" => classHeritage
  | "identifier" => identifier
  | "comment" => comment
  | "class_static_block" => staticBlock
  | "field_definition" => fieldDefinition
  | "method_definition" => methodDefinition
  | "property_identifier" => propertyIdentifier
  | "private_property_identifier" => privatePropertyIdentifier
  | "string" => stringLiteral
  | "template_string" => templateString
  | "member_expression" => memberExpression
  | "subscript_expression" => subscriptExpression
  | "call_expression" => callExpression
  | "super" => superKeyword
  | "this" => thisKeyword
  | "arrow_function" => arrowFunction
  | "function_declaration" => functionDeclaration
  | "function_expression" => functionExpression
  | "function" => functionKeyword
  | "generator_function_declaration" => generatorDeclaration
  | "generator_function" => generatorExpression
  | "assignment_expression" => assignment
  | "augmented_assignment_expression" => augmentedAssignment
  | "update_expression" => update
  | "expression_statement" => expressionStatement
  | "spread_element" => spreadElement
  | "static" => staticToken
  | "static get" => staticGetToken
  | "get" => getToken
  | "set" => setToken
  | "default" => defaultToken
  | "ERROR" => errorNode
  | name => other name

/-- Reading a name loses nothing. -/
@[simp] theorem name_ofName (name : String) : (ofName name).name = name := by
  unfold ofName
  split <;> rfl

/-- The kinds that give `super` and `this` a meaning of their own. -/
def isScope : Kind → Bool
  | classDeclaration | classExpression | functionDeclaration | functionExpression
  | functionKeyword | generatorDeclaration | generatorExpression | methodDefinition => true
  | _ => false

end Kind

/-- The role of a node among the children of its parent. -/
inductive Field where
  | name
  | property
  | body
  | declaration
  | value
  | object
  | index
  | function
  | arguments
  | left
  | other (label : String)
deriving DecidableEq, Repr

namespace Field

/-- The name of a role in the grammar. -/
def label : Field → String
  | name => "name"
  | property => "property"
  | body => "body"
  | declaration => "declaration"
  | value => "value"
  | object => "object"
  | index => "index"
  | function => "function"
  | arguments => "arguments"
  | left => "left"
  | other label => label

/-- The role with a given name. -/
def ofLabel (label : String) : Field :=
  match label with
  | "name" => name
  | "property" => property
  | "body" => body
  | "declaration" => declaration
  | "value" => value
  | "object" => object
  | "index" => index
  | "function" => function
  | "arguments" => arguments
  | "left" => left
  | label => other label

@[simp] theorem label_ofLabel (text : String) : (ofLabel text).label = text := by
  unfold ofLabel
  split <;> rfl

end Field

end Disinherit
