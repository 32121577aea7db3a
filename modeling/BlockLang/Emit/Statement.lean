import BlockLang.Emit.Expression

/-!
# Code of statements

The code of a statement may end in jumps to whatever follows it. These are
passed on and led to the next statement, or back to the head of a loop.
-/

namespace BlockLang

mutual

/-- Whether a return with a value stands in a statement. -/
def Stmt.returnsValue : Stmt → Bool
  | .returnValue _ _ => true
  | .block body => Stmt.someReturnsValue body
  | .ifThen _ body => body.returnsValue
  | .ifElse _ body otherwise => body.returnsValue || otherwise.returnsValue
  | .whileDo _ body => body.returnsValue
  | _ => false

/-- Whether a return with a value stands in some of the statements. -/
def Stmt.someReturnsValue : List Stmt → Bool
  | [] => false
  | s :: ss => s.returnsValue || Stmt.someReturnsValue ss

end

namespace Emit

/-- An assignment. -/
def assign (l : Location) (target value : Computed) : Emit Unit := do
  if target.assignable ∧ target.shape.extents = [] ∧ target.shape = value.shape then
    append .assign (some value.operand) none (some target.operand)
  else
    refuse ⟨.assignment value.shape target.shape, l, none⟩

/-- Appends the quads of a call without a result. -/
def callForEffect : Expr → Emit Unit
  | .call l f arguments => do
      let (g, scope) ← callee l f arguments.length true
      let _ ← invoke g scope (← argumentsOf g g.parameters arguments)
  | _ => malformed .statementNotACall

section Function

variable (function : String) (result : Ty)

/-- A return with a value. -/
def returnValue (l : Location) (value : Expr) : Emit Unit := do
  if result = .nothing then refuse ⟨.unexpectedResult function, l, none⟩
  let c ← expression value
  if c.isScalar result then
    append .assign (some c.operand) none (some .returnValue)
    append .ret none none none
  else
    refuse ⟨.wrongResult function result c.shape, value.location, none⟩

/-- A return without a value. -/
def returnNothing (l : Location) : Emit Unit := do
  if result = .nothing then append .ret none none none
  else refuse ⟨.missingResult function result, l, none⟩

mutual

/-- The code of a statement of a function, with the pending jumps to what follows
it. -/
def statement : Stmt → Emit (List Nat)
  | .empty => return []
  | .assign l target value => do
      let target ← expression target
      let value ← expression value
      assign l target value
      return []
  | .call e => do
      callForEffect e
      return []
  | .block body => statements [] body
  | .ifThen c body => do
      let exits ← condition c
      patchHere exits.whenTrue
      let pending ← statement body
      patchHere exits.whenFalse
      return pending
  | .ifElse c body otherwise => do
      let exits ← condition c
      patchHere exits.whenTrue
      let pending ← statement body
      let skip ← pendingJump
      patchHere exits.whenFalse
      return pending ++ skip :: (← statement otherwise)
  | .whileDo c body => do
      let head ← next
      mark head
      let exits ← condition c
      patchHere exits.whenTrue
      patch (← statement body) head
      append .jump none none (some (.target head))
      return exits.whenFalse
  | .returnValue l value => do
      returnValue function result l value
      return []
  | .returnNothing l => do
      returnNothing function result l
      return []
  | .missing n => malformed (.missingStatement n)

/-- The code of statements, of which the first is where `pending` leads to. -/
def statements (pending : List Nat) : List Stmt → Emit (List Nat)
  | [] => return pending
  | s :: ss => do
      patchHere pending
      statements (← statement s) ss

end

end Function

end Emit

end BlockLang
