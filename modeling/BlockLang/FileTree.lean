import BlockLang.Host
import BlockLang.Path

/-!
# Trees of files

A tree of files is what stands in a working directory. Paths are followed from that directory or
from the root of all files. Of what lies outside the tree only that is known which is the same
everywhere: the directories at the root and above the working directory, and the common devices.
-/

namespace BlockLang

/-- A file with its contents, or a directory. -/
inductive FileNode
  | file (contents : ByteArray)
  | directory

/-- Files that store nothing. -/
inductive Device
  /-- Takes whatever is written. -/
  | null
  /-- Takes nothing. -/
  | full
  /-- Shows what is written on the standard output. -/
  | output
  /-- Shows what is written where errors are shown. -/
  | errors
  deriving DecidableEq

/-- What a name stands for in a directory. -/
inductive Entry
  | node (n : FileNode)
  | device (d : Device)

/-- The directories at the root of all files. -/
def rootDirectories : List String :=
  ["bin", "boot", "dev", "etc", "home", "lib", "media", "mnt", "opt", "proc", "root", "run",
    "sbin", "srv", "sys", "tmp", "usr", "var"]

/-- The devices in the directory of devices. The standard input is empty. -/
def devices : List (String × Device) :=
  [("null", .null), ("stdin", .null), ("full", .full), ("stdout", .output), ("stderr", .errors)]

/-- What stands under names that lead there from the root. -/
def entryFromRoot? : List String → Option Entry
  | [name] => if name ∈ rootDirectories then some (.node .directory) else none
  | ["dev", name] => (devices.lookup name).map .device
  | _ => none

/-- A directory. -/
inductive Place
  /-- The names that lead to it from the working directory. -/
  | inside (names : List String)
  /-- The names that lead to it from the root. -/
  | fromRoot (names : List String)
  /-- Somewhere above the working directory. -/
  | above
  deriving DecidableEq

namespace Place

/-- The directory where a path starts. -/
def start (path : String) : Place := if Path.isAbsolute path then .fromRoot [] else .inside []

/-- The directory above. The root is above itself. -/
def parent : Place → Place
  | inside [] => above
  | inside names => inside names.dropLast
  | fromRoot names => fromRoot names.dropLast
  | above => above

/-- The directory with a given name inside. -/
def child : Place → String → Place
  | inside names, name => inside (names ++ [name])
  | fromRoot names, name => fromRoot (names ++ [name])
  | above, _ => above

end Place

/-- What stands in a working directory, each under the names that lead to it. -/
structure FileTree where
  entries : List (List String × FileNode)

namespace FileTree

variable (tree : FileTree)

/-! ### Following a path -/

/-- What stands in a directory under a name. -/
def find? : Place → String → Option Entry
  | .inside names, name => (tree.entries.lookup (names ++ [name])).map .node
  | .fromRoot names, name => entryFromRoot? (names ++ [name])
  | .above, _ => none

/-- Looks for a name in a directory. -/
def lookup (place : Place) (name : String) : Except FileError (Option Entry) :=
  if Path.nameLimit < name.utf8ByteSize then .error .nameTooLong
  else .ok (tree.find? place name)

/-- The directory that a component of a path leads to. -/
def step (place : Place) (component : String) : Except FileError Place := do
  if Path.isName component then
    match ← tree.lookup place component with
    | some (.node .directory) => return place.child component
    | some _ => throw .notADirectory
    | none => throw .notFound
  else if component = ".." then return place.parent
  else return place

/-- The directory that all components but the last lead to, and the last. -/
def follow (path : String) (components : List String) : Except FileError (Place × String) := do
  let place ← components.dropLast.foldlM tree.step (Place.start path)
  return (place, components.getLastD "")

/-- Refuses what is no path. -/
def checkPath (path : String) : Except FileError Unit :=
  if path = "" then .error .notFound
  else if Path.limit < path.utf8ByteSize then .error .nameTooLong
  else .ok ()

/-! ### Reading and writing -/

/-- The contents that a path leads to. Devices are empty. -/
def read (path : String) : Except FileError ByteArray := do
  checkPath path
  let (place, last) ← tree.follow path (Path.components path)
  if Path.isName last then
    match ← tree.lookup place last with
    | some (.node (.file contents)) => return contents
    | some (.node .directory) => throw .isADirectory
    | some (.device _) => return .empty
    | none => throw .notFound
  else throw .isADirectory

/-- What can be written to. -/
inductive Target
  /-- A file of the tree, there already or not. -/
  | file (names : List String)
  | device (d : Device)
  /-- A file outside the tree. -/
  | elsewhere
  deriving DecidableEq

/-- What a path leads to for writing. A path that ends in a slash names a directory,
whatever stands there. -/
def target (path : String) : Except FileError Target := do
  checkPath path
  let components := Path.components path
  let named := (components.reverse.dropWhile (· = "")).reverse
  let (place, last) ← tree.follow path named
  if Path.isName last ∧ named = components then
    match place, ← tree.lookup place last with
    | _, some (.node .directory) => throw .isADirectory
    | _, some (.device d) => return .device d
    | .inside names, _ => return .file (names ++ [last])
    | _, _ => return .elsewhere
  else throw .isADirectory

/-- The tree with an entry added or replaced. -/
def insert (names : List String) (node : FileNode) : FileTree :=
  if (tree.entries.lookup names).isSome then
    ⟨tree.entries.map fun entry => if entry.1 = names then (names, node) else entry⟩
  else ⟨tree.entries ++ [(names, node)]⟩

end FileTree

end BlockLang
