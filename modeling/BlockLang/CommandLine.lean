import BlockLang.Compile
import BlockLang.Host
import BlockLang.Path

/-!
# The command line

The command compiles one file. It writes the assembly to a second file and shows
the other results on request.
-/

namespace BlockLang

namespace CommandLine

/-- The line that explains the command. -/
def usage : String :=
  "usage: nestc <input> [-o <output>] [--ir] [--blocks] [--ast] [-h|--help]"

/-- Why arguments make no sense. -/
inductive UsageError
  | missingOutput
  | unknownOption (option : String)
  | secondInput
  | noInput
  deriving DecidableEq

namespace UsageError

/-- What is wrong with the arguments, in words. -/
def text : UsageError → String
  | missingOutput => "`-o` expects an output path\n" ++ usage
  | unknownOption option => "unknown option `" ++ option ++ "`\n" ++ usage
  | secondInput => "only one input file is supported\n" ++ usage
  | noInput => "no input file\n" ++ usage

end UsageError

/-- How a file is compiled. -/
structure Options where
  /-- Where the assembly goes. -/
  output : Option String := none
  showTree : Bool := false
  showQuads : Bool := false
  showBlocks : Bool := false
  deriving DecidableEq

/-- What a run is asked to do. -/
inductive Task
  | help
  | compile (input : String) (options : Options)
  deriving DecidableEq

namespace Task

/-- What further arguments ask for, after some that gave the input and the options
so far. A later output replaces an earlier one; whatever follows a request for
help is ignored. -/
def further (input : Option String) (options : Options) : List String → Except UsageError Task
  | [] =>
      match input with
      | some path => .ok (.compile path options)
      | none => .error .noInput
  | "-h" :: _ => .ok .help
  | "--help" :: _ => .ok .help
  | ["-o"] => .error .missingOutput
  | "-o" :: path :: rest => further input { options with output := some path } rest
  | "--ir" :: rest => further input { options with showQuads := true } rest
  | "--blocks" :: rest => further input { options with showBlocks := true } rest
  | "--ast" :: rest => further input { options with showTree := true } rest
  | argument :: rest =>
      if argument.toList.head? = some '-' then .error (.unknownOption argument)
      else if input.isSome then .error .secondInput
      else further (some argument) options rest

/-- What a list of arguments asks for. -/
def ofArguments (arguments : List String) : Except UsageError Task := further none {} arguments

end Task

/-- Where the assembly goes if no output is asked for: beside the input, with the
extension `s`. -/
def defaultOutput (input : String) : String := Path.withExtension input "s"

/-- An error of compilation as the command reports it: in full and then once more
without the stage that found it. -/
def report (e : CompileError) : String :=
  match e.detail? with
  | some detail => e.text ++ ": " ++ detail
  | none => e.text

/-- The results that a run is asked to show. -/
def shown (options : Options) (c : Compilation) : String :=
  (if options.showTree then c.tree ++ "\n" else "") ++
    (if options.showQuads then c.quads else "") ++
    (if options.showBlocks then c.blocks else "")

/-! ### Runs

A run ends with an exit code, zero if it succeeds. -/

section Run

variable {m : Type → Type} [Monad m] (host : Host m)

/-- Ends a run that fails. -/
def fail (message : String) : m Nat := do
  host.printError ("error: " ++ message ++ "\n")
  return 1

/-- Compiles a file. What is asked for is shown before the assembly is written. -/
def compileFile (input : String) (options : Options) : m Nat := do
  match ← host.readText input with
  | .error e => fail host ("cannot read `" ++ input ++ "`: " ++ e.text)
  | .ok source =>
      match (compile source).1 with
      | .error e => fail host (report e)
      | .ok c =>
          host.print (shown options c)
          let output := options.output.getD (defaultOutput input)
          match ← host.write output c.assembly with
          | .error e => fail host ("cannot write `" ++ output ++ "`: " ++ e.text)
          | .ok () => return 0

/-- A run of the command. -/
def run (arguments : List String) : m Nat := do
  match Task.ofArguments arguments with
  | .error e => fail host e.text
  | .ok .help =>
      host.print (usage ++ "\n")
      return 0
  | .ok (.compile input options) => compileFile host input options

end Run

end CommandLine

end BlockLang
