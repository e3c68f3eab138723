import Disinherit.Text.Source

/-!
# Diagnostics and failures

A `Diagnostic` is a finding about the classes of a script that does not stop the work. It has a
kind, the classes concerned, a message and a place; `Diagnostic.render` puts it on one line.

A `ScriptError` stops the work. Its causes are listed in `Fault`, and `Fault.message` words them.
`Failure` adds the one other way in which work can stop: a byte range that cuts a character.
-/

namespace Disinherit

/-- What a diagnostic is about. -/
inductive DiagnosticKind where
  | missingParent
  | circularInheritance
  | unresolvedSuperCall
  | fieldInitializationOrder
  | compileError
  | other (label : String)
deriving DecidableEq, Repr

namespace DiagnosticKind

/-- The label by which a kind is shown. -/
def label : DiagnosticKind → String
  | missingParent => "missing-parent"
  | circularInheritance => "circular-inheritance"
  | unresolvedSuperCall => "unresolved-super-call"
  | fieldInitializationOrder => "field-initialization-order"
  | compileError => "compile-error"
  | other label => label

/-- The kind with a label. -/
def ofLabel (label : String) : DiagnosticKind :=
  match label with
  | "missing-parent" => missingParent
  | "circular-inheritance" => circularInheritance
  | "unresolved-super-call" => unresolvedSuperCall
  | "field-initialization-order" => fieldInitializationOrder
  | "compile-error" => compileError
  | label => other label

@[simp] theorem label_ofLabel (text : String) : (ofLabel text).label = text := by
  unfold ofLabel
  split <;> rfl

/-- The kinds that the checks report. -/
def all : List DiagnosticKind :=
  [missingParent, circularInheritance, unresolvedSuperCall, fieldInitializationOrder, compileError]

end DiagnosticKind

/-- A finding about some classes. Line and column are those of the code concerned, or zero. -/
structure Diagnostic where
  kind : DiagnosticKind
  classes : List String
  message : String
  line : Int := 0
  column : Int := 0
deriving DecidableEq, Repr

namespace Diagnostic

/-- A diagnostic at a place in a source. -/
def located (p : Position) (kind : DiagnosticKind) (classes : List String) (message : String) :
    Diagnostic :=
  ⟨kind, classes, message, p.line, p.column⟩

/-- Only compile errors are fatal. -/
def isFatal (d : Diagnostic) : Bool :=
  d.kind == .compileError

/-- The place as it begins every message: `LINE:COLUMN: `. -/
def place (line column : Int) : String :=
  toString line ++ ":" ++ toString column ++ ": "

/-- A diagnostic on one line. -/
def render (d : Diagnostic) : String :=
  (if d.isFatal then "error" else "warning") ++ ":" ++ place d.line d.column
    ++ "[" ++ d.kind.label ++ "] " ++ d.message

/-- The diagnostics of a kind. -/
def ofKind (kind : DiagnosticKind) (ds : List Diagnostic) : List Diagnostic :=
  ds.filter fun d => d.kind == kind

end Diagnostic

/-- An error that stops the work on a script. -/
structure ScriptError where
  message : String
  line : Int
  column : Int
deriving DecidableEq, Repr

namespace ScriptError

/-- The error on one line. -/
def render (e : ScriptError) : String :=
  "error:" ++ Diagnostic.place e.line e.column ++ e.message

/-- The error as a diagnostic. -/
def diagnostic (e : ScriptError) : Diagnostic :=
  ⟨.compileError, [], e.message, e.line, e.column⟩

@[simp] theorem isFatal_diagnostic (e : ScriptError) : e.diagnostic.isFatal = true := rfl

end ScriptError

/-- Why a script is refused. -/
inductive Fault where
  /-- Text that no statement accounts for. -/
  | unexpected
  /-- A token that had to be there. -/
  | missing (token : String)
  /-- A second class of the same name. -/
  | redeclared (name : String)
deriving DecidableEq, Repr

namespace Fault

/-- The wording of a fault. -/
def message : Fault → String
  | unexpected => "syntax error"
  | missing token => "missing '" ++ token ++ "'"
  | redeclared name => "class '" ++ name ++ "' has already been declared"

/-- The error that a fault at a place amounts to. -/
def error (f : Fault) (p : Position) : ScriptError :=
  ⟨f.message, p.line, p.column⟩

end Fault

/-- Why work on a script stopped. -/
inductive Failure where
  /-- A byte range was to be read as text and cuts a character. -/
  | cutCharacter
  /-- The script is refused. -/
  | refused (error : ScriptError)
deriving DecidableEq, Repr

/-- A result, or the reason why there is none. -/
abbrev Attempt (α : Type) := Except Failure α

end Disinherit
