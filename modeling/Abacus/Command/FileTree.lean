import Abacus.Command.Path

/-!
# File trees

The files and folders that a command can see, as a value. A location is the list of names that
leads to it from the working folder; a location may also lie above the working folder or below the
root, where only the folders on the way are known.

A step on a tree may fail, and keeps what it did to the tree before it failed.

## Main definitions

* `Location`, `Node`, `FileTree`: places, what is found there, and trees
* `FileFault`: why a file cannot be read or written
* `Route`: the way that a path describes, leg by leg
* `FileTree.read`: the content of a file
* `FileTree.write`: a new content, with the folders on the way to it
-/

namespace Abacus

/-- The names that lead to a place. `..` stands only in front, for the folders above the working
folder, and `/` stands only first, for the root. -/
abbrev Location := List String

namespace Location

/-- Whether a place lies in the working folder or below it. -/
def isInside (l : Location) : Bool :=
  l.head? ≠ some ".." && l.head? ≠ some "/"

/-- The working folder, the folders above it and the root are always there. -/
def isKnownFolder (l : Location) : Bool :=
  l.all (· = "..") || l = ["/"]

/-- The folder that holds a place. -/
def parent (l : Location) : Location :=
  if l.all (· = "..") then l ++ [".."] else if l = ["/"] then l else l.dropLast

/-- The place that a name leads to: no name and a dot stay, two dots go up. -/
def child (l : Location) (name : String) : Location :=
  if name = "" ∨ name = "." then l else if name = ".." then l.parent else l ++ [name]

end Location

/-- What is found at a place. -/
inductive Node where
  | folder
  | file (content : ByteArray)

instance : DecidableEq Node
  | .folder, .folder => isTrue rfl
  | .folder, .file _ | .file _, .folder => isFalse nofun
  | .file a, .file b => decidable_of_iff (a.data = b.data) (by simp [ByteArray.ext_iff])

/-- Files and folders by their places. -/
structure FileTree where
  nodes : List (Location × Node) := []
  deriving DecidableEq

/-- Why a file cannot be read or written. -/
inductive FileFault where
  /-- Nothing is there. -/
  | missing
  /-- A folder is there, not a file. -/
  | isFolder
  /-- A file is on the way. -/
  | notFolder
  /-- A file is where the last folder should be made. -/
  | occupied
  /-- The path or one of its names is too long. -/
  | tooLong
  /-- There is a null character in the path. -/
  | nullInPath
  /-- Too many folders on the way are missing. -/
  | tooDeep
  /-- The content is not UTF-8. -/
  | notText
  deriving DecidableEq, Repr

/-- The line that reports a fault. Most are reported by their kind alone. -/
def FileFault.message? : FileFault → Option String
  | nullInPath => some "embedded null byte"
  | tooDeep => some "maximum recursion depth exceeded"
  | _ => none

/-- A step on a file tree. A failing step leaves the tree as it was when it failed. -/
abbrev TreeStep := ExceptT FileFault (StateM FileTree)

namespace Path

/-- The most bytes that a path may have. -/
def maxBytes : Nat := 4095

/-- The most bytes that a name in a path may have. -/
def maxNameBytes : Nat := 255

/-- The most missing folders that are made for one file. -/
def maxMissing : Nat := 990

/-- A path of so many bytes that ends in `text` must have no null character there and must not be
too long. -/
def check (bytes : Nat) (text : String) : Except FileFault Unit :=
  if text.toList.contains '\x00' then .error .nullInPath
  else if maxBytes < bytes then .error .tooLong
  else .ok ()

/-- A name must not be too long. -/
def checkName (name : String) : Except FileFault Unit :=
  if maxNameBytes < name.utf8ByteSize then .error .tooLong else .ok ()

end Path

/-- One leg of a way: the name of a folder, and how many bytes of the path lead up to its end. -/
structure Leg where
  name : String
  reach : Nat
  deriving DecidableEq, Repr

/-- The part of the path up to the end of a leg must be fit to be looked up. -/
def Leg.check (leg : Leg) : Except FileFault Unit :=
  Path.check leg.reach leg.name

/-- The way to a file: where it begins, the folders, and the last name, which is empty when the path
ends in a slash. -/
structure Route where
  start : Location
  folders : List Leg
  last : String
  deriving DecidableEq, Repr

namespace Route

/-- The legs along names that a slash divides; the first name begins at `offset`, and an empty name
is no leg. -/
def legs (offset : Nat) : List String → List Leg
  | [] => []
  | name :: names =>
    let reach := offset + name.utf8ByteSize
    let later := legs (reach + 1) names
    if name = "" then later else ⟨name, reach⟩ :: later

/-- The way that a path describes. -/
def ofPath (path : String) : Route :=
  let names := (Path.segments path.toList).map String.ofList
  { start := if path.toList.head? = some '/' then ["/"] else []
    folders := legs 0 names.dropLast
    last := names.getLast?.getD "" }

end Route

namespace FileTree

/-- What stands below the root of every system: some folders, and the null device, which reads as an
empty file. -/
def standard : FileTree :=
  ⟨(["bin", "dev", "etc", "home", "lib", "opt", "proc", "root", "run", "sbin", "srv", "sys", "tmp",
      "usr", "var"].map fun name => (["/", name], .folder)) ++
    [(["/", "dev", "null"], .file ByteArray.empty)]⟩

/-- What is at a place. -/
def get? (t : FileTree) (l : Location) : Option Node :=
  if l.isKnownFolder then some .folder else t.nodes.lookup l

/-- Put something at a place. -/
def set (t : FileTree) (l : Location) (n : Node) : FileTree :=
  ⟨t.nodes.filter (·.1 ≠ l) ++ [(l, n)]⟩

/-- Follow a way from folder to folder. -/
def follow (t : FileTree) : Location → List Leg → Except FileFault Location
  | l, [] => .ok l
  | l, leg :: rest => do
    Path.checkName leg.name
    match t.get? (l.child leg.name) with
    | some .folder => t.follow (l.child leg.name) rest
    | some (.file _) => throw .notFolder
    | none => throw .missing

/-- **The content of the file that a path leads to.** The empty path leads nowhere. -/
def read (t : FileTree) (path : String) : Except FileFault ByteArray := do
  if path = "" then throw .missing
  Path.check path.utf8ByteSize path
  let route := Route.ofPath path
  let folder ← t.follow route.start route.folders
  Path.checkName route.last
  match t.get? (folder.child route.last) with
  | some (.file content) => return content
  | some .folder => throw .isFolder
  | none => throw .missing

/-- How many legs of a way lead to something. -/
def reached (t : FileTree) : Location → List Leg → Nat
  | _, [] => 0
  | l, leg :: rest =>
    if Path.maxBytes < leg.reach then 0
    else
      match t.get? (l.child leg.name) with
      | some .folder => t.reached (l.child leg.name) rest + 1
      | some (.file _) => 1
      | none => 0

/-- Why the legs behind a file cannot be gone: the path is checked before the file is noticed. -/
def blocked : List Leg → FileFault
  | [] => .occupied
  | leg :: _ =>
    match leg.check with
    | .error f => f
    | .ok _ => .notFolder

/-- Follow a way from folder to folder, and make the folders that are missing. -/
def makeFolders : Location → List Leg → TreeStep Location
  | l, [] => return l
  | l, leg :: rest => do
    liftExcept leg.check
    match (← get).get? (l.child leg.name) with
    | some .folder => makeFolders (l.child leg.name) rest
    | some (.file _) => throw (blocked rest)
    | none =>
      liftExcept (Path.checkName leg.name)
      modify fun t => t.set (l.child leg.name) .folder
      makeFolders (l.child leg.name) rest

/-- The folder that a way leads to, made with all that is missing before it. Nothing is made when
too much is missing. -/
def makeWay (route : Route) : TreeStep Location := do
  let t ← get
  if Path.maxMissing < route.folders.length - t.reached route.start route.folders then
    throw .tooDeep
  makeFolders route.start route.folders

/-- **Write a file.** The folders on its way are made first, and stay even if the file cannot be
written. The content is there as a whole before the file is opened, so emptying the file and filling
it are one step. -/
def write (path : String) (content : ByteArray) : TreeStep Unit := do
  if path = "" then throw .missing
  let route := Route.ofPath path
  let folder ← makeWay route
  liftExcept (Path.check path.utf8ByteSize path)
  liftExcept (Path.checkName route.last)
  match (← get).get? (folder.child route.last) with
  | some .folder => throw .isFolder
  | _ => modify fun t => t.set (folder.child route.last) (.file content)

/-- The nodes in the working folder and below it. -/
def inside (t : FileTree) : List (Location × Node) :=
  t.nodes.filter (·.1.isInside)

/-- The places of the folders in the working folder, in no particular order. -/
def folders (t : FileTree) : List Location :=
  t.inside.filterMap fun
    | (l, .folder) => some l
    | (_, .file _) => none

/-- The places and contents of the files in the working folder, in no particular order. -/
def files (t : FileTree) : List (Location × ByteArray) :=
  t.inside.filterMap fun
    | (_, .folder) => none
    | (l, .file content) => some (l, content)

end FileTree

end Abacus
