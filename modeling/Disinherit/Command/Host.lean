import Disinherit.Directory
import Disinherit.Tree.Node

/-!
# The surroundings of a command

A command reads its input and files, asks a parser for syntax trees, and writes. `Host` lists what
it may ask for. The command line program answers from the operating system; `World` is a host that
is a plain value: a directory, the standard input, the trees that the parser will give in turn, and
what was printed so far.
-/

namespace Disinherit

/-- What a command may ask of its surroundings. -/
class Host (m : Type → Type) where
  /-- All of the standard input. -/
  readInput : m (List UInt8)
  /-- The content of a file, if it can be read. -/
  readFile (path : String) : m (Option (List UInt8))
  /-- The syntax tree of a text. -/
  parse (text : String) : m Node
  /-- Makes a directory and those above it; tells whether it is there. -/
  makeDirectories (path : String) : m Bool
  /-- There is something at a path. -/
  pathExists (path : String) : m Bool
  /-- Creates a file where nothing is. -/
  createFile (path text : String) : m Creation
  /-- Writes a file; tells whether that was possible. -/
  writeFile (path text : String) : m Bool
  /-- Writes to the standard output. -/
  print (text : String) : m Unit
  /-- Writes to the standard error output. -/
  complain (text : String) : m Unit

/-- Surroundings as a value. -/
structure World where
  directory : Directory := {}
  input : List UInt8 := []
  /-- The trees that the parser will give, one for each text. -/
  trees : List Node := []
  out : String := ""
  err : String := ""

namespace World

/-- Replaces the directory by the outcome of an operation. -/
def onDirectory {α : Type} (f : Directory → α × Directory) : StateM World α := fun w =>
  let (a, directory) := f w.directory
  (a, { w with directory })

/-- The next tree of the parser. -/
def nextTree : StateM World Node := fun w =>
  (w.trees.head?.getD .empty, { w with trees := w.trees.tail })

instance : Host (StateM World) where
  readInput w := (w.input, w)
  readFile path w := (w.directory.read? path, w)
  parse _ := nextTree
  makeDirectories path := onDirectory (·.makeDirectories path)
  pathExists path w := (w.directory.pathExists path, w)
  createFile path text := onDirectory (·.createFile path (Text.encode text))
  writeFile path text := onDirectory (·.writeFile path (Text.encode text))
  print text w := ((), { w with out := w.out ++ text })
  complain text w := ((), { w with err := w.err ++ text })

end World

end Disinherit
