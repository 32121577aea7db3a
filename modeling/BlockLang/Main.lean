import BlockLang.CommandLine

/-!
# The command

The command line run on the files of the system.
-/

namespace BlockLang

/-- The number that the system gives to a reason. Some of its calls give it with the
sign reversed. -/
private def reasonNumber (code : UInt32) : Nat := min code.toNat (-code).toNat

/-- The reason that the system gives for a failure. -/
def FileError.ofSystem (e : IO.Error) : FileError :=
  match e with
  | .noFileOrDirectory .. => .notFound
  | .permissionDenied .. => .permissionDenied
  | .inappropriateType _ code _ | .resourceExhausted _ code _ | .invalidArgument _ code _
  | .otherError code _ =>
      match reasonNumber code with
      | 20 => .notADirectory
      | 21 => .isADirectory
      | 28 => .noSpace
      | 36 => .nameTooLong
      | _ => .other (toString e)
  | _ => .other (toString e)

/-- Gives the failure of an action as a reason. -/
def caught {α : Type} (action : IO α) : IO (Except FileError α) := do
  try
    return .ok (← action)
  catch e =>
    return .error (.ofSystem e)

/-- The files and the streams of the system. -/
def system : Host IO where
  read path := caught (IO.FS.readBinFile path)
  write path text := caught do
    let file ← IO.FS.Handle.mk path .write
    file.putStr text
    file.flush
  print text := do
    IO.print text
    (← IO.getStdout).flush
  printError text := IO.eprint text

end BlockLang

/-- Runs the command with the arguments it was given. -/
def main (arguments : List String) : IO UInt32 :=
  return (← BlockLang.CommandLine.run BlockLang.system arguments).toUInt32
