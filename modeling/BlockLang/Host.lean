/-!
# What a command asks of its surroundings

A command reads and writes files and shows texts. How that is done is left open:
by the system, or on a tree of files that is only a value. What can go wrong is
the same for all.
-/

namespace BlockLang

/-- Why a file cannot be read or written. -/
inductive FileError
  | notFound
  | permissionDenied
  | notADirectory
  | isADirectory
  | noSpace
  | nameTooLong
  | notText
  /-- Any other reason, in the words of the system. -/
  | other (reason : String)
  deriving DecidableEq

namespace FileError

/-- A reason in words. -/
def text : FileError → String
  | notFound => "No such file or directory (os error 2)"
  | permissionDenied => "Permission denied (os error 13)"
  | notADirectory => "Not a directory (os error 20)"
  | isADirectory => "Is a directory (os error 21)"
  | noSpace => "No space left on device (os error 28)"
  | nameTooLong => "File name too long (os error 36)"
  | notText => "stream did not contain valid UTF-8"
  | other reason => reason

end FileError

/-- How files are read and written, each under its path, and texts are shown. -/
structure Host (m : Type → Type) where
  read : String → m (Except FileError ByteArray)
  write : String → String → m (Except FileError Unit)
  /-- Shows a text on the standard output. -/
  print : String → m Unit
  /-- Shows a text where errors are shown. -/
  printError : String → m Unit

namespace Host

/-- Bytes as a text. -/
def decode (bytes : ByteArray) : Except FileError String :=
  match String.fromUTF8? bytes with
  | some text => .ok text
  | none => .error .notText

/-- Reads a text. -/
def readText {m : Type → Type} [Monad m] (host : Host m) (path : String) :
    m (Except FileError String) := do
  return (← host.read path).bind decode

end Host

end BlockLang
