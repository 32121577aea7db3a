import BlockLang.Operator

/-!
# Machine instructions

The instructions of a 32-bit x86 machine that programs are made of, in Intel
notation, and the directives and labels between them.
-/

namespace BlockLang

/-- The registers in use. -/
inductive Register
  | eax | ebx | ecx | edx | esi | edi | ebp | esp | al | dl
  deriving DecidableEq

namespace Register

/-- The register of the low byte. -/
def lowByte? : Register → Option Register
  | eax | al => some al
  | edx | dl => some dl
  | _ => none

/-- The name of a register. -/
def text : Register → String
  | eax => "eax"
  | ebx => "ebx"
  | ecx => "ecx"
  | edx => "edx"
  | esi => "esi"
  | edi => "edi"
  | ebp => "ebp"
  | esp => "esp"
  | al => "al"
  | dl => "dl"

end Register

/-- An address: the contents of a register and an offset. -/
structure Memory where
  base : Register
  offset : Int
  deriving DecidableEq

namespace Memory

/-- An address as it is written. -/
def text (m : Memory) : String :=
  let offset :=
    if m.offset = 0 then ""
    else if m.offset < 0 then "-" ++ toString (-m.offset)
    else "+" ++ toString m.offset
  "[" ++ m.base.text ++ offset ++ "]"

end Memory

/-- What an instruction works on. -/
inductive Value
  | register (r : Register)
  | immediate (n : Int)
  | byte (m : Memory)
  | dword (m : Memory)
  /-- The address of a label. -/
  | offset (label : String)
  deriving DecidableEq

namespace Value

/-- A value as it is written. -/
def text : Value → String
  | register r => r.text
  | immediate n => toString n
  | byte m => "byte ptr " ++ m.text
  | dword m => "dword ptr " ++ m.text
  | offset label => "OFFSET " ++ label

end Value

namespace Relation

/-- The suffix of a jump that is taken if a relation holds between signed numbers. -/
def suffix : Relation → String
  | equal => "e"
  | notEqual => "ne"
  | greater => "g"
  | less => "l"
  | greaterEqual => "ge"
  | lessEqual => "le"

end Relation

/-- The lines of assembly. -/
inductive Instruction
  | directive (text : String)
  | label (label : String)
  /-- A string that ends in a zero byte, already escaped. -/
  | asciz (label contents : String)
  | mov (target source : Value)
  | movzx (target : Register) (source : Value)
  | lea (target : Register) (source : Memory)
  | add (target : Register) (source : Value)
  | sub (target : Register) (source : Value)
  | imul (target : Register) (source : Value)
  | xor (target source : Register)
  | cdq
  | idiv (divisor : Register)
  | cmp (left right : Register)
  | jmp (label : String)
  | jcc (relation : Relation) (label : String)
  | call (label : String)
  | push (value : Value)
  | pop (target : Register)
  | ret
  deriving DecidableEq

namespace Instruction

/-- An instruction with two operands as it is written. -/
private def binary (name target source : String) : String :=
  "    " ++ name ++ " " ++ target ++ ", " ++ source

/-- An instruction with one operand as it is written. -/
private def unary (name operand : String) : String := "    " ++ name ++ " " ++ operand

/-- A line of assembly. -/
def text : Instruction → String
  | directive line => line
  | label l => l ++ ":"
  | asciz l contents => l ++ ": .asciz \"" ++ contents ++ "\""
  | mov target source => binary "mov" target.text source.text
  | movzx target source => binary "movzx" target.text source.text
  | lea target source => binary "lea" target.text source.text
  | add target source => binary "add" target.text source.text
  | sub target source => binary "sub" target.text source.text
  | imul target source => binary "imul" target.text source.text
  | xor target source => binary "xor" target.text source.text
  | cdq => "    cdq"
  | idiv divisor => unary "idiv" divisor.text
  | cmp left right => binary "cmp" left.text right.text
  | jmp l => unary "jmp" l
  | jcc relation l => unary ("j" ++ relation.suffix) l
  | call l => unary "call" l
  | push value => unary "push" value.text
  | pop target => unary "pop" target.text
  | ret => "    ret"

end Instruction

end BlockLang
