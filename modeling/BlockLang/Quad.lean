import BlockLang.Operator
import BlockLang.Text.Escape

/-!
# Quads

Between the tree and the machine a program is a sequence of quads: an operation
with up to two operands and an output. Quads are numbered, and jumps name the
number of the quad they lead to.
-/

namespace BlockLang

/-- The name of a function among all functions: its depth and a serial number set
it apart from others of its name. Standard routines have no depth. -/
structure FunctionLabel where
  name : String
  depth : Option Int
  serial : Nat
  deriving DecidableEq

namespace FunctionLabel

/-- The label of a standard routine. -/
def standard (name : String) : FunctionLabel := ⟨name, none, 0⟩

/-- A label as it is written. -/
def text (l : FunctionLabel) : String :=
  match l.depth with
  | none => "_" ++ l.name
  | some depth =>
      "_" ++ l.name ++ "_" ++ toString depth ++
        (if 0 < l.serial then "." ++ toString l.serial else "")

end FunctionLabel

/-- The operands and outputs of quads. -/
inductive Operand
  /-- A temporary. -/
  | temp (number : Nat)
  /-- The cell whose address a temporary holds. -/
  | cell (number : Nat)
  /-- A variable or a parameter. -/
  | name (name : String)
  | int (value : Int32)
  | char (byte : UInt8)
  | string (text : String)
  /-- A jump whose target is not known yet. -/
  | pending
  /-- The number of a quad to jump to. -/
  | target (quad : Nat)
  | byValue
  | byReference
  /-- The result of the running function. -/
  | returnValue
  /-- Marks where the result of a call goes. -/
  | returnDestination
  | function (label : FunctionLabel)
  deriving DecidableEq

namespace Operand

/-- An operand as it is written. -/
def text : Operand → String
  | temp n => "$" ++ toString n
  | cell n => "[$" ++ toString n ++ "]"
  | name x => x
  | int value => toString value.toInt
  | char byte => "'" ++ String.ofList (EscapeStyle.literal.byte byte) ++ "'"
  | string s => "\"" ++ EscapeStyle.literal.text s ++ "\""
  | pending => "*"
  | target quad => toString quad
  | byValue => "V"
  | byReference => "R"
  | returnValue => "$$"
  | returnDestination => "RET"
  | function label => label.text

end Operand

/-- The operations of quads. -/
inductive Opcode
  /-- The start of a function. -/
  | unit
  /-- The end of a function. -/
  | endUnit
  | assign
  /-- The address of an array cell. -/
  | array
  | jump
  /-- A jump that is taken if a relation holds. -/
  | compare (relation : Relation)
  | arith (operator : Arith)
  | call
  /-- A parameter of the next call. -/
  | par
  | ret
  deriving DecidableEq

namespace Opcode

/-- An operation as it is written. -/
def text : Opcode → String
  | unit => "unit"
  | endUnit => "endu"
  | assign => ":="
  | array => "array"
  | jump => "jump"
  | compare relation => relation.text
  | arith operator => operator.text
  | call => "call"
  | par => "par"
  | ret => "ret"

/-- Whether an operation compares two operands. -/
def isRelational : Opcode → Bool
  | compare _ => true
  | _ => false

/-- Whether control may leave for another quad than the next. -/
def isJump : Opcode → Bool
  | compare _ | jump | call | ret | endUnit => true
  | _ => false

end Opcode

/-- An operation with its operands and its output. -/
structure Quad where
  op : Opcode
  first : Option Operand
  second : Option Operand
  output : Option Operand
  deriving DecidableEq

namespace Quad

/-- An operand as it is written, or a dash. -/
private def shown : Option Operand → String
  | some operand => operand.text
  | none => "-"

/-- A quad as it is written. The output of an address computation is shown as the
temporary that holds the address. -/
def text (q : Quad) : String :=
  let output :=
    match q.op, q.output with
    | .array, some (.cell n) => (Operand.temp n).text
    | _, output => shown output
  q.op.text ++ ", " ++ shown q.first ++ ", " ++ shown q.second ++ ", " ++ output

end Quad

end BlockLang
