import Disinherit.Table
import Disinherit.Text.Source

/-!
# Directories

A `Directory` is a file system seen from a working directory: files and directories by their
location, which is the list of names on the way. Paths are written with slashes. `Directory.locate?`
follows one step by step: every step but the last must lead to a directory that is there, `.` and
the empty name stay where they are, `..` goes back, and a name of more than 255 bytes leads nowhere,
as does a path of more than 4095.

A path can leave the working directory: by `..`, or by a slash at its start, which stands for the
root. Such a location begins with as many `..` as it takes to climb, or with a slash. The
directories on the way up and the root are always there (`isLandmark`); what else is outside is what
was put there, so a name outside is not the same place as that name inside. `listing` shows only
what is inside.

`makeDirectories` works from the inside out: a directory whose enclosing path leads nowhere has that
one made first, and a path that ends with `.` then needs nothing more. A file in the place of the
enclosing directory is no failure yet: it only stops what is to be made in it. What was made stays
when a later directory cannot be made. The limit on paths holds for each path as it is written,
slashes included. `createFile` never touches what is there; `writeFile` replaces a file.

Two things are left out. There are no symbolic links: a location is reached by its own names only,
and `..` leads back to where a path came from. And there are no permissions: it is assumed that
every file that is there can be read and replaced, and that something new can be made in every
directory.
-/

namespace Disinherit

/-- The names on the way to a file or directory, after a climb by `..` or a start at the root `/` if
it is outside the working directory. -/
abbrev Location := List String

/-- What can be at a location. -/
inductive DirectoryEntry where
  | directory
  | file (content : List UInt8)
deriving DecidableEq, Repr

/-- The files and directories seen from a working directory. -/
structure Directory where
  entries : Table Location DirectoryEntry := []

/-- The outcome of creating a file or directory. -/
inductive Creation where
  | created
  | alreadyThere
  | impossible
deriving DecidableEq, Repr

namespace Directory

/-- The most bytes that a name can have. -/
def longestName : Nat := 255

/-- The most bytes that a path can have. -/
def longestPath : Nat := 4095

/-- The name can be that of a file. -/
def isShort (name : String) : Bool :=
  decide (name.utf8ByteSize ≤ longestName)

/-- The pieces of a text between slashes. -/
def pieces : List Char → List (List Char)
  | [] => [[]]
  | c :: cs =>
    if c = '/' then [] :: pieces cs
    else
      match pieces cs with
      | [] => [[c]]
      | first :: rest => (c :: first) :: rest

/-- The names in a path. -/
def steps (path : String) : List String :=
  (pieces path.toList).map String.ofList

/-- The characters up to the last that is not a slash. -/
def dropSlashes (cs : List Char) : List Char :=
  (cs.reverse.dropWhile (· = '/')).reverse

/-- The last name of a path. -/
def leaf (path : String) : String :=
  String.ofList ((dropSlashes path.toList).reverse.takeWhile (· ≠ '/')).reverse

/-- The path before the last name. -/
def enclosing (path : String) : String :=
  String.ofList (dropSlashes ((dropSlashes path.toList).reverse.dropWhile (· ≠ '/')).reverse)

theorem length_dropSlashes_le (cs : List Char) : (dropSlashes cs).length ≤ cs.length := by
  have := (List.dropWhile_sublist (l := cs.reverse) (· = '/')).length_le
  simpa [dropSlashes] using this

/-- The enclosing path is shorter, unless there is no name at all. -/
theorem length_enclosing_lt {path : String} (h : leaf path ≠ "") :
    (enclosing path).length < path.length := by
  have name : 0 < ((dropSlashes path.toList).reverse.takeWhile (· ≠ '/')).length := by
    refine List.length_pos_iff.2 fun none => h ?_
    rw [leaf, none]
    rfl
  have cut := congrArg List.length
    (List.takeWhile_append_dropWhile (p := (· ≠ '/')) (l := (dropSlashes path.toList).reverse))
  have inner := length_dropSlashes_le
    ((dropSlashes path.toList).reverse.dropWhile (· ≠ '/')).reverse
  have outer := length_dropSlashes_le path.toList
  simp only [List.length_append, List.length_reverse] at cut inner
  simp only [enclosing, ← String.length_toList, String.toList_ofList]
  omega

/-- Where a path begins: the root after a slash, else the working directory. -/
def origin (path : String) : Location :=
  if path.toList.head? = some '/' then ["/"] else []

/-- The location is the working directory, one above it, or the root. -/
def isLandmark (loc : Location) : Bool :=
  loc.all (· == "..") || loc == ["/"]

/-- The location is not below the working directory. -/
def isOutside (loc : Location) : Bool :=
  loc.head? == some ".." || loc.head? == some "/"

/-- The location one step back. The root is its own. -/
def above (loc : Location) : Location :=
  if loc == ["/"] then loc
  else if isLandmark loc then loc ++ [".."]
  else loc.dropLast

variable (d : Directory)

/-- What is at a location. The landmarks are directories. -/
def entry? (loc : Location) : Option DirectoryEntry :=
  if isLandmark loc then some .directory else d.entries.get? loc

/-- There is a directory at a location. -/
def isDirectory (loc : Location) : Bool :=
  d.entry? loc == some .directory

/-- One step of a path, taken from a directory. -/
def step? (loc : Location) (name : String) : Option Location :=
  if !d.isDirectory loc then none
  else if name = "" ∨ name = "." then some loc
  else if name = ".." then some (above loc)
  else if isShort name then some (loc ++ [name])
  else none

/-- The location to which names lead from the origin of a path. The path is one that can be followed
at all: neither empty nor too long. -/
def follow? (path : String) (names : List String) : Option Location :=
  if path = "" ∨ longestPath < path.utf8ByteSize then none
  else names.foldlM d.step? (origin path)

/-- The location of a path, where something may or may not be. A slash at the end asks for a
directory that is there. -/
def locate? (path : String) : Option Location :=
  d.follow? path (steps path)

/-- The location at which a path asks for a directory. Here slashes at the end ask for nothing. -/
def site? (path : String) : Option Location :=
  d.follow? path ((steps path).filter (· ≠ ""))

/-- There is something at a path. -/
def pathExists (path : String) : Bool :=
  ((d.locate? path).bind d.entry?).isSome

/-- The content of the file at a path. -/
def read? (path : String) : Option (List UInt8) :=
  match (d.locate? path).bind d.entry? with
  | some (.file content) => some content
  | _ => none

/-- The directory with something at a location. -/
def put (loc : Location) (e : DirectoryEntry) : Directory :=
  ⟨d.entries.put loc e⟩

/-- Creates a file where nothing is yet. -/
def createFile (path : String) (content : List UInt8) : Creation × Directory :=
  match d.locate? path with
  | none => (.impossible, d)
  | some loc =>
    match d.entry? loc with
    | some _ => (.alreadyThere, d)
    | none => (.created, d.put loc (.file content))

/-- Writes a file, new or not. -/
def writeFile (path : String) (content : List UInt8) : Bool × Directory :=
  match d.locate? path with
  | none => (false, d)
  | some loc =>
    if d.isDirectory loc then (false, d) else (true, d.put loc (.file content))

/-- Makes a directory in one that is there. If the directory itself is there it counts as made; a
file in its place does not. -/
def makeDirectory (path : String) : Creation × Directory :=
  match d.site? path with
  | none => (.impossible, d)
  | some loc =>
    match d.entry? loc with
    | some .directory => (.created, d)
    | some (.file _) => (.alreadyThere, d)
    | none => (.created, d.put loc .directory)

/-- Makes a directory and before it those that enclose it and are missing. -/
def makeWithEnclosing (path : String) : Creation × Directory :=
  if h : leaf path ≠ "" ∧ enclosing path ≠ "" ∧ !d.pathExists (enclosing path) then
    have := length_enclosing_lt h.1
    let r := makeWithEnclosing (enclosing path)
    if r.1 = .impossible then r
    else if leaf path = "." then (.created, r.2)
    else r.2.makeDirectory path
  else d.makeDirectory path
termination_by path.length

/-- Makes sure that there is a directory at a path, and tells whether there was no failure. -/
def makeDirectories (path : String) : Bool × Directory :=
  let r := d.makeWithEnclosing path
  (r.1 == .created, r.2)

/-- Everything below the working directory by its path, in order. The path of a directory ends with
a slash, and a directory has no content. -/
def listing : List (String × Option (List UInt8)) :=
  let inside := d.entries.filter fun (loc, _) => !isOutside loc
  let shown := inside.map fun (loc, e) =>
    let path := String.intercalate "/" loc
    match e with
    | .directory => (path ++ "/", none)
    | .file content => (path, some content)
  shown.mergeSort fun a b => decide (a.1 ≤ b.1)

end Directory

end Disinherit
