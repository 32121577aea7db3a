import BlockLang.CommandLine
import BlockLang.FileTree

/-!
# Runs on a tree of files

A session holds the files of a working directory and what has been shown. The
command can be run in it, which gives the files and the texts that it leaves.
-/

namespace BlockLang

/-- The files of a working directory and what has been shown. -/
structure Session where
  files : FileTree
  /-- What has been shown on the standard output. -/
  output : String := ""
  /-- What has been shown where errors are shown. -/
  errors : String := ""

namespace Session

/-- Shows a text on the standard output. -/
def print (s : Session) (text : String) : Session := { s with output := s.output ++ text }

/-- Shows a text where errors are shown. -/
def printError (s : Session) (text : String) : Session := { s with errors := s.errors ++ text }

/-- Writes a text to what a path has led to. What is written outside the tree leaves
it as it is. -/
def writeTo (s : Session) (text : String) : FileTree.Target → Except FileError Session
  | .file names => .ok { s with files := s.files.insert names (.file text.toUTF8) }
  | .device .null | .elsewhere => .ok s
  | .device .full => .error .noSpace
  | .device .output => .ok (s.print text)
  | .device .errors => .ok (s.printError text)

/-- Writes a text under a path. -/
def write (s : Session) (path text : String) : Except FileError Session := do
  s.writeTo text (← s.files.target path)

/-- Reading, writing and showing in a session. -/
def host : Host (StateM Session) where
  read path := return (← get).files.read path
  write path text := do
    match (← get).write path text with
    | .ok s =>
        set s
        return .ok ()
    | .error e => return .error e
  print text := modify fun s => s.print text
  printError text := modify fun s => s.printError text

/-- A run of the command on the files of a working directory: its exit code and the
session that it leaves. -/
def run (files : FileTree) (arguments : List String) : Nat × Session :=
  CommandLine.run host arguments { files }

end Session

end BlockLang
