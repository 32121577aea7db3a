import BlockLang.Assembly.Lower
import BlockLang.Event

/-!
# Emitting code

Code is emitted while a tree is walked: names are declared and looked up in an
environment, quads are appended, and as soon as a function is complete its quads
are lowered and divided into blocks. A step may fail; what happened before stays
known.
-/

namespace BlockLang

/-- What is known while code is emitted. -/
structure Progress where
  env : Environment := {}
  code : Code := {}
  assembly : Assembly := {}
  /-- The blocks of the completed functions, in the order of completion. -/
  blocks : List (FunctionLabel × List Block) := []
  /-- The number of quads that have been divided into blocks. -/
  blocksDone : Nat := 0
  /-- The names and depths of the functions so far. -/
  functions : List (String × Int) := []
  /-- What happened, in order. -/
  events : Array Event := #[]

/-- Steps that emit code. A step that fails keeps what it emitted. -/
abbrev Emit := EStateM CompileError Progress

/-- What an expression was computed to. -/
structure Computed where
  /-- The type and the extents that have not been subscripted. -/
  shape : Shape
  operand : Operand
  /-- Whether it stands for a place in memory that may be assigned to. -/
  assignable : Bool
  deriving DecidableEq

namespace Computed

/-- A value that is no place. -/
def value (ty : Ty) (operand : Operand) : Computed := ⟨⟨ty, []⟩, operand, false⟩

/-- The same value, as no place. -/
def asValue (c : Computed) : Computed := { c with assignable := false }

/-- Whether it is a single value of a type. -/
def isScalar (c : Computed) (ty : Ty) : Bool := c.shape = ⟨ty, []⟩

end Computed

namespace Emit

/-! ### Failure and events -/

/-- Fails because the program has no meaning. -/
def refuse {α : Type} (e : SemanticError) : Emit α := throw (.semantic e)

/-- Fails because of a tree that no program gives rise to. -/
def malformed {α : Type} (e : InternalError) : Emit α := throw (.internal e)

/-- Notes an event. -/
def note (e : Event) : Emit Unit := modify fun p => { p with events := p.events.push e }

/-! ### Quads -/

/-- The number of the next quad. -/
def next : Emit Nat := return (← get).code.next

/-- Appends a quad and gives its number. -/
def push (op : Opcode) (first second output : Option Operand) : Emit Nat := do
  let n ← next
  let quad : Quad := ⟨op, first, second, output⟩
  note (.pushed n quad)
  modify fun p => { p with code := p.code.push quad }
  return n

/-- Appends a quad whose number is not needed. -/
def append (op : Opcode) (first second output : Option Operand) : Emit Unit := do
  let _ ← push op first second output

/-- A new temporary. -/
def newTemp (ty : Ty) : Emit Nat :=
  modifyGet fun p => (p.code.temps.size, { p with code := p.code.newTemp ty })

/-- Describes the address that a temporary holds. -/
def describe (temp : Nat) (info : CellInfo) : Emit Unit :=
  modify fun p => { p with code := p.code.describe temp info }

/-- Marks a quad as a jump target. -/
def mark (quad : Nat) : Emit Unit := modify fun p => { p with code := p.code.mark quad }

/-- Lets pending jumps lead to a quad. -/
def patch (pending : List Nat) (target : Nat) : Emit Unit :=
  modify fun p => { p with code := p.code.patch pending target }

/-- Lets pending jumps lead to the next quad. -/
def patchHere (pending : List Nat) : Emit Unit := do patch pending (← next)

/-- A jump whose target is not known yet. -/
def pendingJump : Emit Nat := push .jump none none (some .pending)

/-- Computes into a new temporary. -/
def arithmetic (operator : Arith) (left right : Operand) : Emit Operand := do
  let n ← newTemp .int
  append (.arith operator) (some left) (some right) (some (.temp n))
  return .temp n

/-! ### Names -/

/-- The declaration that a name stands for. -/
def find? (name : String) : Emit (Option Binding) := return (← get).env.find? name

/-- Declares a name in the innermost scope. -/
def declare (d : Declaration) : Emit Unit := do
  let env := (← get).env
  match env.declare d with
  | .ok env' =>
      note (.bound d.name env.scope)
      modify fun p => { p with env := env' }
  | .error e => refuse e

/-- Opens a scope. -/
def enterScope : Emit Unit := do
  let env := (← get).env.enter
  modify fun p => { p with env }
  note (.entered env.scope)

/-- Leaves the innermost scope. -/
def leaveScope : Emit Unit := do
  let env := (← get).env
  match env.leave with
  | .ok env' =>
      note (.left env.scope env.innermost.length)
      modify fun p => { p with env := env' }
  | .error e => refuse e

/-! ### Completed functions -/

/-- Adds assembly. -/
def lower {α : Type} (step : Lower α) : Emit α := fun p =>
  match step p.assembly with
  | .ok a assembly => .ok a { p with assembly }
  | .error e assembly => .error (.internal e) { p with assembly }

/-- Lowers the quads of a function that is complete. -/
def lowerFunction (label : FunctionLabel) : Emit Unit := do
  let p ← get
  let site ← lower (Lower.site p.code p.env label)
  note (.lowered label p.assembly.quadsDone p.code.next site.frame.size)
  lower (Lower.body site)

/-- Divides the quads of a function that is complete into blocks. -/
def divideFunction (label : FunctionLabel) : Emit Unit := do
  let p ← get
  let blocks := p.code.blocksFrom p.blocksDone
  note (.divided p.blocksDone p.code.next blocks.length)
  modify fun p => { p with
    blocks := p.blocks ++ [(label, blocks)]
    blocksDone := p.code.next }

end Emit

end BlockLang
