import Disinherit.Command.Run
import Disinherit.Tree.Listing

/-!
# The command line program

Answers the questions of a command from the operating system. Syntax trees come from a parser
outside: the environment variable `SYNTAX_TREES` names files, with colons between them, that hold
the listings of the trees in the order in which the command needs them.
-/

namespace Disinherit.Program

/-- Input and output, and the trees that are still to come. -/
abbrev Session := StateT (List Node) IO

/-- Reads a stream to its end. -/
partial def readAll (stream : IO.FS.Stream) (seen : ByteArray) : IO ByteArray := do
  let more ← stream.read 65536
  if more.isEmpty then return seen else readAll stream (seen ++ more)

/-- An action that may fail, tried. -/
def attempt {α : Type} (action : IO α) : Session (Option α) := do
  try
    return some (← action)
  catch _ => return none

/-- Creates a file where nothing is. -/
def createNew (path text : String) : IO Creation := do
  try
    let handle ← IO.FS.Handle.mk path .writeNew
    handle.putStr text
    return .created
  catch
    | .alreadyExists .. => return .alreadyThere
    | _ => return .impossible

instance : Host Session where
  readInput := do
    let bytes ← readAll (← IO.getStdin) .empty
    return bytes.data.toList
  readFile path := do
    let bytes ← attempt (IO.FS.readBinFile path)
    return bytes.map (·.data.toList)
  parse _ := modifyGet fun trees => (trees.head?.getD .empty, trees.tail)
  makeDirectories path := do
    return path != "" && (← attempt (IO.FS.createDirAll path)).isSome
  pathExists path := do
    return path != "" && (← ((← IO.currentDir) / path).pathExists)
  createFile path text := createNew path text
  writeFile path text := do
    return (← attempt (IO.FS.writeFile path text)).isSome
  print text := IO.print text
  complain text := IO.eprint text

/-- The line that tells of a failure that ends the program. -/
def failureLine : Failure → String
  | .cutCharacter => "error: a range cuts a character\n"
  | .refused e => e.render ++ "\n"

/-- The trees in the files that the environment names. -/
def readTrees : IO (List Node) := do
  match ← IO.getEnv "SYNTAX_TREES" with
  | none => return []
  | some paths =>
    let listings ← (paths.splitOn ":").mapM fun (path : String) => IO.FS.readFile path
    return listings.filterMap fun text => (Listing.ofText? text).bind Listing.tree?

end Disinherit.Program

/-- Runs a command line. -/
def main (words : List String) : IO UInt32 := do
  let trees ← Disinherit.Program.readTrees
  let session : Disinherit.Program.Session (Disinherit.Attempt Nat) := Disinherit.run words
  let (outcome, _) ← session.run trees
  match outcome with
  | .ok status => return status.toUInt32
  | .error e =>
    IO.eprint (Disinherit.Program.failureLine e)
    return 1
