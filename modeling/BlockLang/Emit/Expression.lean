import BlockLang.Emit

/-!
# Code of expressions and conditions

An expression is computed from left to right into an operand. A condition is computed into jumps:
it is left through some of them if it holds and through the others if not, and only as much of it
is computed as decides which. The number of a cell is built up subscript by subscript.
-/

namespace BlockLang

/-- The pending jumps through which a condition is left. -/
structure Exits where
  whenTrue : List Nat
  whenFalse : List Nat
  deriving DecidableEq

namespace Emit

/-! ### Names -/

/-- A variable or a parameter. -/
def named (l : Location) (x : String) : Emit Computed := do
  match ← find? x with
  | none => refuse ⟨.undeclaredName x, l, none⟩
  | some binding =>
      match binding.declaration with
      | .var v => return ⟨⟨v.ty, v.extents⟩, .name x, true⟩
      | .param p => return ⟨p.shape, .name x, true⟩
      | .fn f => refuse ⟨.functionAsVariable x, l, some f.location⟩

/-! ### Arrays -/

/-- Checks that something can take so many subscripts. -/
def checkSubscripts (l : Location) (array : Computed) (count : Nat) : Emit Unit := do
  let extents := array.shape.extents.length
  if extents = 0 then refuse ⟨.notAnArray array.operand, l, none⟩
  if extents < count then refuse ⟨.tooManySubscripts array.operand extents, l, none⟩

/-- The operand of a subscript. -/
def subscript (l : Location) (c : Computed) : Emit Operand := do
  if c.isScalar .int then return c.operand
  else refuse ⟨.subscript c.shape, l, none⟩

/-- A number of cells as an operand. -/
def cellCount (l : Location) (n : Nat) : Emit Operand := do
  if n < offsetLimit then return .int (Int32.ofNat n)
  else refuse ⟨.rowTooLarge, l, none⟩

/-- One more than the largest unsigned 64-bit number, in which cells are counted. -/
def countLimit : Nat := 0x10000000000000000

/-- The number of cells of a row, if every product on the way can be counted. -/
def rowCells? (extents : List Nat) : Option Nat :=
  extents.foldlM (fun cells n => if cells * n < countLimit then some (cells * n) else none) 1

/-- The number of the first cell of a row, from the number of the row. -/
def rowStart (l : Location) (offset : Operand) (extents : List Nat) : Emit Operand := do
  if extents.isEmpty then return offset
  match rowCells? extents with
  | some n => arithmetic .mul offset (← cellCount l n)
  | none => refuse ⟨.rowTooLarge, l, none⟩

/-- A cell or a row of an array. -/
def element (array : Computed) (extents : List Nat) (offset : Operand) : Emit Computed := do
  let n ← newTemp .int
  describe n ⟨array.shape.ty, extents.length⟩
  append .array (some array.operand) (some offset) (some (.cell n))
  return ⟨⟨array.shape.ty, extents⟩, .cell n, true⟩

/-! ### Calls -/

/-- The function that a call names, with the scope of its declaration. A call that
stands as a statement must have no result and any other must have one. -/
def callee (l : Location) (f : String) (arguments : Nat) (isStatement : Bool) :
    Emit (FunctionDecl × Int) := do
  match ← find? f with
  | none => refuse ⟨.undeclaredFunction f, l, none⟩
  | some ⟨.fn g, scope⟩ =>
      if isStatement ∧ g.result ≠ .nothing then
        refuse ⟨.resultDiscarded f, l, some g.location⟩
      if ¬ isStatement ∧ g.result = .nothing then refuse ⟨.noResult f, l, some g.location⟩
      if arguments ≠ g.parameters.length then
        refuse ⟨.argumentCount f g.parameters.length arguments, l, some g.location⟩
      return (g, scope)
  | some ⟨d, _⟩ => refuse ⟨.notAFunction f, l, some d.location⟩

/-- Whether extents match those of a parameter. One left open matches any. -/
def extentsMatch (p : Parameter) (extents : List Nat) : Bool :=
  if p.isOpen then
    match extents with
    | [] => false
    | _ :: rest => rest = p.extents
  else extents = p.extents

/-- Checks an argument against its parameter. -/
def checkArgument (f : FunctionDecl) (p : Parameter) (l : Location) (c : Computed) :
    Emit Unit := do
  if c.shape.ty ≠ p.ty ∨ ¬ extentsMatch p c.shape.extents then
    refuse ⟨.argumentType p.name f.name p.shape c.shape, l, some f.location⟩
  if p.byReference ∧ ¬ c.assignable then
    refuse ⟨.argumentNotAssignable p.name f.name, l, some f.location⟩

/-- Appends the quads of the arguments. -/
def passArguments (arguments : List Argument) : Emit Unit :=
  arguments.forM fun a =>
    append .par (some a.value) (some (if a.byReference then .byReference else .byValue)) none

/-- Appends the quad of a call. -/
def callQuad (f : FunctionDecl) (scope : Int) : Emit Unit :=
  let label : FunctionLabel :=
    if f.isStandard then .standard f.name else ⟨f.name, some scope, f.serial⟩
  append .call none none (some (.function label))

/-- Appends the quads of a call and gives its result, if it has one. -/
def invoke (f : FunctionDecl) (scope : Int) (arguments : List Argument) :
    Emit (Option Computed) := do
  passArguments arguments
  if f.result = .nothing then
    callQuad f scope
    return none
  else
    let n ← newTemp f.result
    append .par (some (.temp n)) (some .returnDestination) none
    callQuad f scope
    return some (.value f.result (.temp n))

/-! ### Operators -/

/-- An arithmetic operation. -/
def arithOf (l : Location) (operator : Arith) (left right : Computed) : Emit Computed := do
  if left.isScalar .int ∧ right.isScalar .int then
    return .value .int (← arithmetic operator left.operand right.operand)
  else
    refuse ⟨.arithmetic left.shape right.shape, l, none⟩

/-- A signed operand. -/
def signOf (l : Location) (sign : Sign) (c : Computed) : Emit Computed := do
  if c.isScalar .int then
    match sign with
    | .minus => return .value .int (← arithmetic .mul c.operand (.int (-1)))
    | .plus => return c.asValue
  else
    refuse ⟨.sign sign c.shape, l, none⟩

/-! ### Expressions -/

mutual

/-- The code of an expression. -/
def expression : Expr → Emit Computed
  | .name l x => named l x
  | .int _ value => return .value .int (.int value)
  | .char _ byte => return .value .char (.char byte)
  | .string _ s => return ⟨⟨.char, [s.utf8ByteSize + 1]⟩, .string s, true⟩
  | .index l base first more => do
      let array ← expression base
      checkSubscripts l array (more.length + 1)
      let offset ← subscript first.location (← expression first)
      let offset ← rowOffset l (array.shape.extents.drop 1) offset more
      let extents := array.shape.extents.drop (more.length + 1)
      element array extents (← rowStart l offset extents)
  | .call l f arguments => do
      let (g, scope) ← callee l f arguments.length false
      match ← invoke g scope (← argumentsOf g g.parameters arguments) with
      | some c => return c
      | none => malformed .noCallResult
  | .group _ inner => return (← expression inner).asValue
  | .arith l operator left right => do
      let left ← expression left
      let right ← expression right
      arithOf l operator left right
  | .sign l sign operand => do signOf l sign (← expression operand)
  | .missing n => malformed (.missingExpression n)
  | .compare l .. | .logic l .. | .not l .. => malformed (.conditionAsValue l)

/-- The number of a row after further subscripts, from the number of the row before
them. The extents are those of the further subscripts. -/
def rowOffset (l : Location) : List Nat → Operand → List Expr → Emit Operand
  | _, offset, [] => return offset
  | extents, offset, e :: es => do
      let index ← subscript e.location (← expression e)
      let scaled ← arithmetic .mul offset (← cellCount l (extents.headD 0))
      let offset ← arithmetic .add scaled index
      rowOffset l extents.tail offset es

/-- The code of the arguments of a call, each checked before the next. -/
def argumentsOf (f : FunctionDecl) : List Parameter → List Expr → Emit (List Argument)
  | p :: ps, e :: es => do
      let c ← expression e
      checkArgument f p e.location c
      return ⟨c.operand, p.byReference⟩ :: (← argumentsOf f ps es)
  | _, _ => return []

end

/-! ### Conditions -/

/-- A comparison of two operands. -/
def comparison (l : Location) (relation : Relation) (left right : Computed) : Emit Exits := do
  if left.shape.extents = [] ∧ left.shape = right.shape ∧ left.shape.ty ≠ .nothing then
    let taken ← push (.compare relation) (some left.operand) (some right.operand) (some .pending)
    let passed ← pendingJump
    return ⟨[taken], [passed]⟩
  else
    refuse ⟨.comparison left.shape right.shape, l, none⟩

/-- The code of a condition. -/
def condition : Expr → Emit Exits
  | .group _ inner => condition inner
  | .not _ operand => do
      let exits ← condition operand
      return ⟨exits.whenFalse, exits.whenTrue⟩
  | .logic _ .or left right => do
      let left ← condition left
      patchHere left.whenFalse
      let right ← condition right
      return ⟨left.whenTrue ++ right.whenTrue, right.whenFalse⟩
  | .logic _ .and left right => do
      let left ← condition left
      patchHere left.whenTrue
      let right ← condition right
      return ⟨right.whenTrue, left.whenFalse ++ right.whenFalse⟩
  | .compare l relation left right => do
      let left ← expression left
      let right ← expression right
      comparison l relation left right
  | .missing n => malformed (.missingExpression n)
  | .name l .. | .int l .. | .char l .. | .string l .. | .index l .. | .call l .. | .arith l ..
  | .sign l .. => malformed (.expressionAsCondition l)

end Emit

end BlockLang
