import Disinherit.Script.Basic
import Disinherit.Text.Blank

/-!
# Class statements

A top-level statement declares a class if it is a class declaration, or exports one. This file finds
the class in a statement (`Node.declaredClass?`), tells how it is exported (`Node.exportForm`),
reads string literals and the `extends` clause (`Script.extendsClause`), and finds the indentation
that a script uses for class members (`Script.indentation`).
-/

namespace Disinherit

/-- How a class is exported. -/
inductive ExportForm where
  | unexported
  | asDefault
  | asNamed
deriving DecidableEq, Repr

/-- The label by which an export form is shown. -/
def ExportForm.label : ExportForm → String
  | unexported => "none"
  | asDefault => "default"
  | asNamed => "named"

/-- What a class says about its parent. -/
structure ExtendsClause where
  /-- The parent's name, where the clause is a plain name. -/
  parent : Option String
  /-- The text of the clause after `extends`. -/
  text : Option String
deriving DecidableEq, Repr

namespace Node

/-- The class that a top-level statement declares. A default export may hold a class expression
as its value. -/
def declaredClass? (stmt : Node) : Option Node :=
  match stmt.kind with
  | .classDeclaration => some stmt
  | .exportStatement =>
    ((stmt.child? .declaration).or (stmt.child? .value)).filter fun c =>
      c.kind == .classDeclaration || c.kind == .classExpression
  | _ => none

/-- How a top-level statement exports what it declares. -/
def exportForm (stmt : Node) : ExportForm :=
  match stmt.kind with
  | .exportStatement => if stmt.hasWord .defaultToken none then .asDefault else .asNamed
  | _ => .unexported

/-- The members and comments in the body of a class. -/
def bodyItems (cls : Node) : List Node :=
  match cls.child? .body with
  | some body => body.namedChildren
  | none => []

end Node

namespace Text

/-- A literal without its quotes: the first and the last character, if they are the same quote. -/
def unquote (raw : String) : String :=
  match raw.toList with
  | q :: c :: cs =>
    if (q == '\x27' || q == '\x22') && (c :: cs).getLast? == some q then
      String.ofList (c :: cs).dropLast
    else raw
  | _ => raw

/-- The text after a leading word, trimmed; the whole text if it does not begin with the word. -/
def afterWord (word text : String) : String :=
  if word.toList.isPrefixOf text.toList then
    trim (String.ofList (text.toList.drop word.toList.length))
  else text

end Text

namespace Script

variable (s : Script)

/-- The contents of a string literal. -/
def literalText (n : Node) : Attempt String :=
  return Text.unquote (← s.text n)

/-- The `extends` clause of a class. -/
def extendsClause (cls : Node) : Attempt ExtendsClause :=
  match cls.children.find? fun c => c.kind == .classHeritage with
  | none => .ok ⟨none, none⟩
  | some clause => do
    let text := Text.afterWord "extends" (← s.text clause)
    match clause.namedChildren with
    | [expr] =>
      if expr.kind = .identifier then return ⟨some (← s.text expr), some text⟩
      else return ⟨none, some text⟩
    | _ => return ⟨none, some text⟩

/-- The indentation of members where the script shows none. -/
def fallbackIndentation : String := "    "

/-- The blanks before the first member of a class, if it has any and the line begins with them. -/
def memberIndentation? (cls : Node) : Attempt (Option String) :=
  match cls.bodyItems.find? fun c => c.kind != .comment with
  | none => .ok none
  | some member => do
    let lead ← s.slice (s.source.startOfLine member.start) member.start
    return if lead ≠ "" ∧ Text.allBlank lead then some lead else none

/-- The indentation of class members: that of the first class whose first member begins a line. -/
def indentationOf : List Node → Attempt String
  | [] => .ok fallbackIndentation
  | stmt :: stmts =>
    match stmt.declaredClass? with
    | none => indentationOf stmts
    | some cls => do
      match ← s.memberIndentation? cls with
      | some indent => return indent
      | none => indentationOf stmts

/-- The indentation of class members in the script. -/
def indentation : Attempt String :=
  s.indentationOf s.root.namedChildren

end Script

end Disinherit
