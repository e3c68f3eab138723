import Disinherit.Command.Host
import Disinherit.Fragment

/-!
# Splitting a script into files

`splitInto` writes each fragment of a script to a file of its own in a directory, which is made if
need be. If any of the files is there already, nothing is written. After that check the files are
created one by one; the first that cannot be created ends the work.
-/

namespace Disinherit

/-- What can go wrong in a command, apart from the script itself. -/
inductive CommandError where
  | cannotOpen (path : String)
  | invalidText
  | noInput
  | cannotWrite (path : String)
  | cannotCreate (path : String)
  | alreadyThere (path : String)
deriving DecidableEq, Repr

namespace CommandError

/-- The wording of an error. -/
def message : CommandError → String
  | cannotOpen path => "cannot open '" ++ path ++ "'"
  | invalidText => "invalid utf-8 in input"
  | noInput => "no input provided"
  | cannotWrite path => "cannot write '" ++ path ++ "'"
  | cannotCreate path => "cannot create '" ++ path ++ "'"
  | alreadyThere path => "file already exists, not overwriting: '" ++ path ++ "'"

/-- The exit status that goes with an error. -/
def status : CommandError → Nat
  | noInput => 2
  | _ => 1

/-- The line that tells of an error. -/
def line (e : CommandError) : String :=
  "error: " ++ e.message ++ "\n"

end CommandError

/-- A name in a directory. -/
def joinPath (dir name : String) : String :=
  if dir = "" ∨ dir.toList.getLast? = some '/' then dir ++ name else dir ++ "/" ++ name

namespace Fragment

/-- The file for a fragment. -/
def path (dir : String) (f : Fragment) : String :=
  joinPath dir (f.name ++ ".js")

/-- The content of that file. -/
def content (f : Fragment) : String :=
  f.code ++ "\n"

end Fragment

section

variable {m : Type → Type} [Monad m] [Host m]

/-- The first of some paths at which there is something. -/
def firstExisting? : List String → m (Option String)
  | [] => return none
  | path :: paths => do
    if ← Host.pathExists path then return some path
    firstExisting? paths

/-- Creates the files of some fragments. -/
def createAll (dir : String) : List Fragment → m (Option CommandError)
  | [] => return none
  | f :: fs => do
    match ← Host.createFile (f.path dir) f.content with
    | .created => createAll dir fs
    | .alreadyThere => return some (.alreadyThere (f.path dir))
    | .impossible => return some (.cannotWrite (f.path dir))

/-- Writes fragments to a directory. -/
def writeFragments (dir : String) (fs : List Fragment) : m (Option CommandError) := do
  match ← firstExisting? (fs.map (·.path dir)) with
  | some path => return some (.alreadyThere path)
  | none => createAll dir fs

/-- Splits a text into files. It fails if the text is no script. -/
def splitInto (dir text : String) : m (Attempt (Option CommandError)) := do
  if ← Host.makeDirectories dir then
    let tree ← Host.parse text
    match (Script.ofTree text tree).bind Script.fragments with
    | .error e => return .error e
    | .ok fs => return .ok (← writeFragments dir fs)
  else return .ok (some (.cannotCreate dir))

/-- Tells of an error, if there is one, and gives the exit status. -/
def finish : Option CommandError → m Nat
  | none => return 0
  | some e => do
    Host.complain e.line
    return e.status

/-- Splits a text into files and gives the exit status. -/
def split (dir text : String) : m (Attempt Nat) := do
  match ← splitInto dir text with
  | .error e => return .error e
  | .ok outcome => return .ok (← finish outcome)

end

end Disinherit
