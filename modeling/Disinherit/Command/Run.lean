import Disinherit.Command.Arguments
import Disinherit.Command.Split
import Disinherit.Compile
import Disinherit.View

/-!
# Running a command

`run` does what a command line asks for and gives the exit status: 0 if all went well, 1 for an
error in the work, 2 for a command line or input that makes no sense. With `--strict` any diagnostic
counts as an error, and nothing is written.

A refusal of the input is told and makes the exit status 1. Any other failure is not told but is the
outcome of the run: a range that cuts a character, and a refusal of the output when it is read again
to be split.
-/

namespace Disinherit

section

variable {m : Type → Type} [Monad m] [Host m]

/-- The text to work on: a file, or the standard input. -/
def readText (input : Option String) : m (Except CommandError String) := do
  let bytes? ← match input with
    | some path => Host.readFile path
    | none => some <$> Host.readInput
  match bytes? with
  | none => return .error (.cannotOpen (input.getD ""))
  | some bytes =>
    match Text.decode? bytes with
    | none => return .error .invalidText
    | some text => return if Text.allBlank text then .error .noInput else .ok text

/-- The JSON view of a phase. -/
def phaseView (phase : Phase) (text : String) (tree : Node) : Attempt String := do
  let script ← Script.ofTree text tree
  let registry ← script.registry
  match phase with
  | .registry => return registry.view.render
  | .hierarchy => return registry.hierarchyView.render

/-- Tells of a refused input and gives the exit status. -/
def giveUp : Failure → m (Attempt (Except Nat String))
  | .refused e => do
    Host.complain (e.render ++ "\n")
    return .ok (.error 1)
  | .cutCharacter => return .error .cutCharacter

/-- The output for a text, or the exit status if there is none. -/
def produce (args : Arguments) (text : String) : m (Attempt (Except Nat String)) := do
  let tree ← Host.parse text
  match args.stopAt with
  | some phase =>
    match phaseView phase text tree with
    | .error e => giveUp e
    | .ok view => return .ok (.ok view)
  | none =>
    match compile args.options text tree with
    | .error e => giveUp e
    | .ok c =>
      if args.verbose then Host.complain (String.join (c.events.map (·.render ++ "\n")))
      Host.complain (String.join (c.diagnostics.map (·.render ++ "\n")))
      return .ok (if args.strict && !c.ok then .error 1 else .ok c.code)

/-- A text that ends with a line feed. -/
def withLineEnd (text : String) : String :=
  if text.toList.getLast? = some '\n' then text else text ++ "\n"

/-- Writes the output where it belongs and gives the exit status. -/
def deliver (args : Arguments) (output : String) : m (Attempt Nat) :=
  match args.splitDir, args.output with
  | some dir, _ => split dir output
  | none, some path => do
    let written ← Host.writeFile path output
    return .ok (← finish (if written then none else some (.cannotWrite path)))
  | none, none => do
    Host.print (withLineEnd output)
    return .ok 0

/-- Does what is asked for. -/
def perform (args : Arguments) : m (Attempt Nat) := do
  match ← readText args.input with
  | .error e => return .ok (← finish (some e))
  | .ok text =>
    match ← produce args text with
    | .error e => return .error e
    | .ok (.error status) => return .ok status
    | .ok (.ok output) => deliver args output

/-- Runs a command line. -/
def run (words : List String) : m (Attempt Nat) :=
  match Arguments.parse words with
  | .error .help => do
    Host.print Arguments.usage
    return .ok 0
  | .error (.usage e) => do
    Host.complain e.line
    return .ok 2
  | .ok args => perform args

end

end Disinherit
