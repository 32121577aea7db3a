/-!
# Paths of files

A path is a text whose components stand between slashes. The empty component and
`.` lead nowhere else, `..` leads out of a directory, and every other component
is a name. Names and whole paths are limited in their number of bytes.
-/

namespace BlockLang

namespace Path

/-- The largest number of bytes of a name. -/
def nameLimit : Nat := 255

/-- The largest number of bytes of a path. -/
def limit : Nat := 4095

/-- The parts of a path between slashes. -/
def components (path : String) : List String := (path.toList.splitOn '/').map String.ofList

/-- Whether a path starts at the root of all files. -/
def isAbsolute (path : String) : Bool := path.toList.head? = some '/'

/-- Whether a component is the name of an entry in a directory. -/
def isName (component : String) : Bool :=
  component ≠ "" && component ≠ "." && component ≠ ".."

/-- The name of a file without its extension: all before the last dot, unless
nothing stands before it. -/
def stem (name : String) : String :=
  match (name.toList.splitOn '.').dropLast with
  | [] | [[]] => name
  | parts => String.ofList (['.'].intercalate parts)

/-- The name with its extension replaced. The old extension goes first; if only two
dots are left of the name they lead out of the directory, and no extension can be
added to them. -/
def nameWithExtension (name extension : String) : String :=
  if stem name = "." then ".." else stem name ++ "." ++ extension

/-- The components of a path up to the last that leads somewhere else. -/
def upToLast (path : String) : List String :=
  ((components path).reverse.dropWhile fun part => part = "" || part = ".").reverse

/-- The path with the extension of its last name replaced. A path that ends in no
name stays as it is. -/
def withExtension (path extension : String) : String :=
  let parts := upToLast path
  match parts.getLast? with
  | none | some ".." => path
  | some name => "/".intercalate (parts.dropLast ++ [nameWithExtension name extension])

end Path

end BlockLang
