import BlockLang.Assembly
import BlockLang.Environment

/-!
# Lowering quads to instructions

Each quad is lowered by itself: its operands are loaded from memory, the result
is computed in `eax` or `edx` and stored back. The frame of an enclosing function
is reached by following links, one for each level between the running function
and the one that is looked for.

A function is lowered when its last quad is known and its scope is still open, so
that its names mean what they mean in its body.
-/

namespace BlockLang

/-- A function that is lowered: the code it is part of, the names visible in its
body and its frame. -/
structure FunctionSite where
  code : Code
  env : Environment
  label : FunctionLabel
  frame : Frame

namespace FunctionSite

/-- The number of function levels from the body out to a scope. -/
def hops (site : FunctionSite) (scope : Int) : Int := site.env.scope - scope

end FunctionSite

namespace Lower

open Assembly

/-- The base of the running frame. -/
def base : Value := .register .ebp

/-- Copies a value into a register. -/
def move (target : Register) (source : Value) : Instruction :=
  .mov (.register target) source

/-- Puts the base of the frame a number of levels out into `esi`. -/
def walk (hops : Int) : Lower Unit :=
  emitAll (move .esi (.dword ⟨.ebp, Frame.linkOffset⟩) ::
    List.replicate (hops - 1).toNat (move .esi (.dword ⟨.esi, Frame.linkOffset⟩)))

section Operands

variable (site : FunctionSite)

/-- The type of the value of an operand. A row of an array counts as its address. -/
def typeOf : Operand → Lower Ty
  | .temp n =>
      match site.code.temps[n]? with
      | some ty => return ty
      | none => throw (.unknownTemporary n)
  | .cell n =>
      match site.code.cell? n with
      | some info => return if info.remaining = 0 then info.element else .int
      | none => throw (.undescribedCell n)
  | .name x =>
      match (site.env.find? x).map Binding.declaration with
      | some (.var v) => return v.ty
      | some (.param p) => return p.ty
      | _ => throw (.notAVariable x)
  | .int _ => return .int
  | .char _ => return .char
  | operand => throw (.noType operand)

/-- The slot of a temporary. -/
def tempSlot (n : Nat) : Lower Memory :=
  match site.frame.tempOffset? n with
  | some offset => return ⟨.ebp, offset⟩
  | none => throw (.temporaryOutsideFrame n)

/-- The offset of a variable of a scope in the frame that it belongs to. -/
def variableOffset? (scope : Int) (x : String) : Option Int :=
  if site.hops scope = 0 then site.frame.variableOffset? x
  else (Frame.layout? (site.env.locals scope) []).bind fun frame => frame.variableOffset? x

/-- The cell of a variable or a parameter. -/
def named (x : String) : Lower Memory := do
  match site.env.find? x with
  | none => throw (.unbound x)
  | some binding =>
      let hops := site.hops binding.scope
      let frame ←
        if hops = 0 then pure Register.ebp
        else do
          walk hops
          pure Register.esi
      match binding.declaration with
      | .var _ =>
          match variableOffset? site binding.scope x with
          | some offset => return ⟨frame, offset⟩
          | none => throw (.noSlot x)
      | .param p =>
          match (site.env.parameters binding.scope).findIdx? fun q => q.name = x with
          | some position =>
              let slot : Memory := ⟨frame, Frame.argumentOffset position⟩
              if p.byReference then
                emit (move .esi (.dword slot))
                return ⟨.esi, 0⟩
              else
                return slot
          | none => throw (.notAnArgument x)
      | .fn _ => throw (.functionAsValue x)

/-- The memory that an operand stands for. Reaching it may change `esi` and `edi`. -/
def memory : Operand → Lower Memory
  | .temp n => tempSlot site n
  | .cell n => do
      let slot ← tempSlot site n
      emit (move .edi (.dword slot))
      return ⟨.edi, 0⟩
  | .name x => named site x
  | operand => throw (.notInMemory operand)

/-- Loads the value of an operand into a register, a character without sign. -/
def load (operand : Operand) (target : Register) : Lower Unit := do
  match operand with
  | .int value => emit (move target (.immediate value.toInt))
  | .char byte => emit (move target (.immediate byte.toNat))
  | _ =>
      let ty ← typeOf site operand
      let m ← memory site operand
      if ty = .char then emit (.movzx target (.byte m)) else emit (move target (.dword m))

/-- Stores a register into what an operand stands for, a character as one byte. -/
def store (operand : Operand) (source : Register) : Lower Unit := do
  let ty ← typeOf site operand
  let m ← memory site operand
  if ty = .char then
    match source.lowByte? with
    | some low => emit (.mov (.byte m) (.register low))
    | none => throw (.noLowByte source)
  else
    emit (.mov (.dword m) (.register source))

/-- Puts the address of an operand into `esi`. -/
def address (operand : Operand) : Lower Unit := do
  match operand with
  | .string s =>
      let n ← stringNumber s
      emit (move .esi (.offset (stringLabel n)))
  | _ =>
      let m ← memory site operand
      emit (.lea .esi m)

end Operands

section Quads

variable (site : FunctionSite)

/-- An operand that has to be there. -/
def required : Option Operand → Lower Operand
  | some operand => return operand
  | none => throw .missingOperand

/-- The label that a jump leads to. -/
def jumpLabel (q : Quad) : Lower String := do
  match ← required q.output with
  | .target n => return quadLabel n
  | operand => throw (.unexpectedOperand operand q)

/-- Pushes the arguments of a call, the last one first. -/
def pushArguments : List Argument → Lower Unit
  | [] => return
  | a :: as => do
      pushArguments as
      if a.byReference then
        address site a.value
        emit (.push (.register .esi))
      else
        load site a.value .eax
        emit (.push (.register .eax))

/-- Pushes the base of the frame in which the called function was declared. -/
def pushLink (callee : FunctionLabel) (depth : Int) : Lower Unit := do
  let hops := site.hops depth
  if hops < 0 then throw (.notVisible callee site.env.scope)
  if hops = 0 then
    emit (.push base)
  else
    walk hops
    emit (.push (.register .esi))

/-- Calls a function with the arguments that are remembered. Standard routines
get no link. -/
def call (callee : FunctionLabel) : Lower Unit := do
  let arguments ← takeArguments
  pushArguments site arguments
  let words ←
    match callee.depth with
    | none => pure arguments.length
    | some depth => do
        pushLink site callee depth
        pure (arguments.length + 1)
  emit (.call callee.text)
  if 0 < words then
    emit (.add .esp (.immediate (Frame.argumentBytes words)))
  if let some destination ← takeDestination then
    store site destination .eax

/-- The instruction of an operator that needs no preparation. -/
def arithInstruction : Arith → Instruction
  | .add => .add .eax (.register .edx)
  | .sub => .sub .eax (.register .edx)
  | _ => .imul .eax (.register .edx)

/-- Lowers one quad. -/
def quad (q : Quad) : Lower Unit := do
  match q.op with
  | .unit =>
      emitAll [.label site.label.text, .push base, move .ebp (.register .esp),
        .sub .esp (.immediate site.frame.size)]
  | .endUnit =>
      emitAll [.label (endLabel site.label), move .esp base, .pop .ebp, .ret]
  | .ret => emit (.jmp (endLabel site.label))
  | .assign =>
      load site (← required q.first) .eax
      match ← required q.output with
      | .returnValue => return
      | output => store site output .eax
  | .array =>
      let n ←
        match ← required q.output with
        | .cell n | .temp n => pure n
        | operand => throw (.unexpectedOperand operand q)
      match site.code.cell? n with
      | none => throw (.undescribedTemporary n)
      | some info =>
          load site (← required q.second) .eax
          emit (move .ecx (.immediate info.element.size))
          emit (.imul .eax (.register .ecx))
          address site (← required q.first)
          emit (.add .eax (.register .esi))
          store site (.temp n) .eax
  | .arith .div => divide .eax
  | .arith .mod => divide .edx
  | .arith operator =>
      load site (← required q.first) .eax
      load site (← required q.second) .edx
      emit (arithInstruction operator)
      store site (← required q.output) .eax
  | .jump => emit (.jmp (← jumpLabel q))
  | .compare relation =>
      let label ← jumpLabel q
      load site (← required q.first) .eax
      load site (← required q.second) .edx
      emit (.cmp .eax .edx)
      emit (.jcc relation label)
  | .par =>
      let value ← required q.first
      match ← required q.second with
      | .byValue => remember ⟨value, false⟩
      | .byReference => remember ⟨value, true⟩
      | .returnDestination => modify fun a => { a with destination := some value }
      | operand => throw (.unexpectedOperand operand q)
  | .call =>
      match ← required q.output with
      | .function callee => call site callee
      | operand => throw (.unexpectedOperand operand q)
where
  /-- Divides and stores the register that holds the quotient or the remainder. -/
  divide (result : Register) : Lower Unit := do
    load site (← required q.first) .eax
    emit .cdq
    load site (← required q.second) .ebx
    emit (.idiv .ebx)
    store site (← required q.output) result
  /-- Remembers an argument of the next call. -/
  remember (argument : Argument) : Lower Unit :=
    modify fun a => { a with arguments := a.arguments ++ [argument] }

/-- Lowers a numbered quad, with a label if it is a jump target. -/
def numbered (q : Quad) (n : Nat) : Lower Unit := do
  if site.code.isTarget n then
    emit (.label (quadLabel n))
  quad site q

end Quads

/-! ### Functions -/

/-- The function that the quads and temporaries not yet lowered belong to. -/
def site (code : Code) (env : Environment) (label : FunctionLabel) : Lower FunctionSite := do
  let done := (← get).tempsDone
  let temps := (code.temps.toList.drop done).zipIdx done |>.map fun (ty, n) => (n, ty)
  match Frame.layout? (env.locals env.scope) temps with
  | some frame => return ⟨code, env, label, frame⟩
  | none => throw (.frameTooLarge label)

/-- Lowers the quads of a function. -/
def body (site : FunctionSite) : Lower Unit := do
  let done := (← get).quadsDone
  (List.range' done (site.code.next - done)).forM fun n =>
    match site.code.quads[n]? with
    | some q => numbered site q n
    | none => throw (.missingQuad n)
  modify fun a => { a with quadsDone := site.code.next, tempsDone := site.code.temps.size }

/-- Lowers the quads that have not been lowered, as the function `label`. -/
def function (code : Code) (env : Environment) (label : FunctionLabel) : Lower Unit := do
  body (← site code env label)

/-- The start of the program, which calls the outermost function. It needs no
link; the base of the starting frame stands in its place. -/
def entry (program : FunctionLabel) : Lower Unit :=
  emitAll [.directive ".global main", .label "main",
    .push base, move .ebp (.register .esp),
    .push (.register .ebx), .push (.register .esi), .push (.register .edi),
    .push base, .call program.text, .add .esp (.immediate Frame.word),
    .pop .edi, .pop .esi, .pop .ebx, .xor .eax .eax, .pop .ebp, .ret]

end Lower

end BlockLang
