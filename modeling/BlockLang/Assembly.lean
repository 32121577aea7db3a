import BlockLang.CompileError
import BlockLang.Code
import BlockLang.Frame

/-!
# Assembly in progress

Assembly is produced one function at a time. Between functions it remembers how
many quads and temporaries have been lowered, and the string literals that go
into the data section; between the quads of a call it remembers the arguments.
-/

namespace BlockLang

/-- An argument of the next call. -/
structure Argument where
  value : Operand
  byReference : Bool
  deriving DecidableEq

/-- The lines of assembly so far, with what is remembered between quads. -/
structure Assembly where
  lines : Array Instruction := #[.directive ".intel_syntax noprefix", .directive ".text"]
  /-- The string literals in the order of their first use. -/
  strings : Array String := #[]
  /-- The arguments of the next call. -/
  arguments : List Argument := []
  /-- Where the result of the next call goes. -/
  destination : Option Operand := none
  /-- The number of quads that have been lowered. -/
  quadsDone : Nat := 0
  /-- The number of temporaries that belong to lowered functions. -/
  tempsDone : Nat := 0

namespace Assembly

/-- The label of a string literal. -/
def stringLabel (n : Nat) : String := "string_literal_" ++ toString n

/-- The label of a quad. -/
def quadLabel (n : Nat) : String := "L" ++ toString n

/-- The label of the end of a function. -/
def endLabel (f : FunctionLabel) : String := f.text ++ "_end"

/-- The data section with the string literals, if there are any. -/
def data (a : Assembly) : List Instruction :=
  if a.strings.isEmpty then []
  else
    .directive ".data" :: a.strings.toList.zipIdx.map fun (s, n) =>
      .asciz (stringLabel n) (EscapeStyle.assembler.text s)

/-- All lines, the data section last. -/
def program (a : Assembly) : List Instruction := a.lines.toList ++ a.data

/-- The finished text. -/
def text (a : Assembly) : String := String.join (a.program.map fun line => line.text ++ "\n")

end Assembly

/-- Steps that add lines of assembly. A step that fails keeps what it added. -/
abbrev Lower := EStateM InternalError Assembly

namespace Lower

/-- Adds lines. -/
def emitAll (lines : List Instruction) : Lower Unit :=
  modify fun a => { a with lines := a.lines ++ lines }

/-- Adds a line. -/
def emit (line : Instruction) : Lower Unit :=
  modify fun a => { a with lines := a.lines.push line }

/-- The number of a string literal, a new one for a new literal. -/
def stringNumber (s : String) : Lower Nat :=
  modifyGet fun a =>
    match a.strings.idxOf? s with
    | some n => (n, a)
    | none => (a.strings.size, { a with strings := a.strings.push s })

/-- Takes the arguments of the next call. -/
def takeArguments : Lower (List Argument) :=
  modifyGet fun a => (a.arguments, { a with arguments := [] })

/-- Takes where the result of the next call goes. -/
def takeDestination : Lower (Option Operand) :=
  modifyGet fun a => (a.destination, { a with destination := none })

end Lower

end BlockLang
