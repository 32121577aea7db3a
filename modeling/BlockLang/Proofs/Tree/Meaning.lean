import BlockLang.Proofs.Emit.Step
import BlockLang.Proofs.Memory
import Mathlib

/-!
# The meaning of expressions and statements

Operands are evaluated from left to right in a memory, which calls may change. It matters when the
value of a place is taken: at once, before the next operand is evaluated, or late, when the
operation needs it. Statements are run to one of three endings: they are finished, a return was
reached, or a step had no meaning. A subscript that is out of range is kept apart from these.
-/

namespace BlockLang

variable {d : Denoted} {s : Store}

/-- Why something has no meaning. -/
inductive Fault
  /-- An operation without a result. -/
  | undefined
  /-- A subscript that is out of range. -/
  | outOfRange
  deriving DecidableEq

/-- When the value of an operand is taken from its place: before the next operand is
evaluated, or when it is needed. -/
inductive Reading
  | atOnce | late
  deriving DecidableEq

/-- Evaluations, which may change the memory. -/
abbrev Eval := StateT Store (Except Fault)

namespace Eval

variable {α β : Type}

/-- Something that has no meaning if it is not there. -/
def ofOption : Option α → Eval α
  | some a => return a
  | none => throw .undefined

/-- The value of what an expression stands for. -/
def read (d : Denoted) : Eval Word := do ofOption (d.read? (← get))

/-- Writes a word to a place for a scalar. -/
def write (d : Denoted) (w : Word) : Eval Unit := do
  let (ty, a) ← ofOption d.scalar?
  modify fun s => s.write ty a w

/-- An operand, as its value if values are taken at once. -/
def settle (reading : Reading) (d : Denoted) : Eval Denoted :=
  match reading with
  | .atOnce => return d.settled (← get)
  | .late => return d

/-- An argument of a call. Places that are passed by reference stay what they are. -/
def settleArgument (reading : Reading) (byReference : Bool) (d : Denoted) : Eval Denoted :=
  if byReference then return d else settle reading d

theorem bind_run (x : Eval α) (f : α → Eval β) (s : Store) :
    (x >>= f) s = match x s with
      | .ok (a, s') => f a s'
      | .error fault => .error fault := by
  change Except.bind (x s) _ = _
  cases x s <;> rfl

theorem bind_of_ok {x : Eval α} {f : α → Eval β} {s' : Store} {a : α} (h : x s = .ok (a, s')) :
    (x >>= f) s = f a s' := by
  rw [bind_run, h]

theorem settle_late_bind (d : Denoted) (f : Denoted → Eval α) : (settle .late d >>= f) = f d := rfl

theorem read_of_some {w : Word} (h : d.read? s = some w) : read d s = .ok (w, s) := by
  change ofOption (d.read? s) s = _
  rw [h]
  rfl

theorem read_of_none (h : d.read? s = none) : read d s = .error .undefined := by
  change ofOption (d.read? s) s = _
  rw [h]
  rfl

end Eval

/-! ### Arrays -/

/-- The number of the first cell that subscripts select, with the cells counted row
by row. There is none if a subscript is out of range. -/
def cellNumber? : List Nat → List Word → Option Nat
  | _, [] => some 0
  | [], _ :: _ => none
  | n :: ns, i :: is =>
      if 0 ≤ i.toInt ∧ i.toInt < n then (cellNumber? ns is).map (i.toInt.toNat * ns.prod + ·)
      else none

/-- The cell or row of an array that subscripts select. -/
def Denoted.select (is : List Word) : Denoted → Eval Denoted
  | .place ⟨ty, extents⟩ a =>
      match cellNumber? extents is with
      | some k => return .place ⟨ty, extents.drop is.length⟩ (a + .ofNat (ty.size * k))
      | none => throw .outOfRange
  | .value _ => throw .undefined

/-! ### Calls -/

/-- What is handed over for an argument: the address of its place or its value. -/
def Denoted.pass (byReference : Bool) (d : Denoted) : Eval Passed :=
  if byReference then
    match d with
    | .place _ a => return .reference a
    | .value _ => throw .undefined
  else return .value (← Eval.read d)

/-- What is handed over for arguments, of which each comes with the way it is passed. -/
def Eval.passAll : List (Bool × Denoted) → Eval (List Passed)
  | [] => return []
  | (byReference, d) :: ds => do
      let passed ← d.pass byReference
      return passed :: (← passAll ds)

/-- The result of a call. -/
def Context.callOf (ctx : Context) (label : FunctionLabel) (passed : List Passed) : Eval Word := do
  let (w, s) ← Eval.ofOption (ctx.call label passed (← get))
  set s
  return w

theorem Context.callOf_run (ctx : Context) (label : FunctionLabel) (passed : List Passed)
    (s : Store) :
    ctx.callOf label passed s = match ctx.call label passed s with
      | some r => .ok r
      | none => .error .undefined := by
  unfold callOf
  rw [Eval.bind_run]
  change (Eval.ofOption (ctx.call label passed s) >>= _) s = _
  cases ctx.call label passed s <;> rfl

/-! ### Expressions -/

namespace Expr

section Meaning

variable (ctx : Context) (reading : Reading)

mutual

/-- What an expression stands for. -/
def denote : Expr → Eval Denoted
  | .name _ x => .ofOption (ctx.place? x)
  | .int _ w => return .value w
  | .char _ b => return .value (.ofByte b)
  | .string _ s => return .place ⟨.char, [s.utf8ByteSize + 1]⟩ (ctx.literal s)
  | .index _ base first more => do
      let array ← base.denote
      let d ← Eval.settle reading (← first.denote)
      array.select (← subscripts d more)
  | .call _ f arguments =>
      match ctx.env.find? f with
      | some ⟨.fn g, scope⟩ => do
          let ds ← denoteArguments g.parameters arguments
          let passed ← Eval.passAll ds
          return .value (← ctx.callOf (Emit.calleeLabel g scope) passed)
      | _ => throw .undefined
  | .group _ inner => inner.denote
  | .arith _ operator left right => do
      let a ← Eval.settle reading (← left.denote)
      let b ← right.denote
      return .value (← .ofOption (operator.compute? (← Eval.read a) (← Eval.read b)))
  | .sign _ .minus operand => do return .value (-(← Eval.read (← operand.denote)))
  | .sign _ .plus operand => operand.denote
  | .compare .. | .logic .. | .not .. | .missing _ => throw .undefined

/-- The values of subscripts, of which the first was evaluated to `d`. -/
def subscripts (d : Denoted) : List Expr → Eval (List Word)
  | [] => return [← Eval.read d]
  | e :: es => do
      let d' ← e.denote
      let i ← Eval.read d
      let j ← Eval.read d'
      return i :: (← subscripts (.value j) es)

/-- What the arguments of a call stand for, with the way they are passed. -/
def denoteArguments : List Parameter → List Expr → Eval (List (Bool × Denoted))
  | q :: qs, e :: es => do
      let d ← Eval.settleArgument reading q.byReference (← e.denote)
      return (q.byReference, d) :: (← denoteArguments qs es)
  | _, _ => return []

end

/-- Whether a condition holds. Only as much of it is evaluated as decides that. -/
def holds : Expr → Eval Bool
  | .group _ inner => inner.holds
  | .not _ operand => do return !(← operand.holds)
  | .logic _ .or left right => do if ← left.holds then return true else right.holds
  | .logic _ .and left right => do if ← left.holds then right.holds else return false
  | .compare _ relation left right => do
      let a ← Eval.settle reading (← left.denote ctx reading)
      let b ← right.denote ctx reading
      return relation.holds (← Eval.read a) (← Eval.read b)
  | _ => throw .undefined

end Meaning

end Expr

/-! ### Statements -/

/-- How the run of a statement ends. -/
inductive Ending
  | finished (store : Store)
  /-- A return was reached, with a value or without. -/
  | returned (value : Option Word) (store : Store)
  /-- A step had no meaning. -/
  | failed (fault : Fault)

/-- The ending of a statement that consists of one evaluation. -/
def Ending.ofResult {α : Type} (ending : α → Store → Ending) : Except Fault (α × Store) → Ending
  | .ok (a, s) => ending a s
  | .error fault => .failed fault

namespace Stmt

variable (ctx : Context) (reading : Reading)

def assignment (target value : Expr) : Eval Unit := do
  let place ← target.denote ctx reading
  let d ← value.denote ctx reading
  Eval.write place (← Eval.read d)

/-- The result of a function. -/
def result (value : Expr) : Eval Word := do Eval.read (← value.denote ctx reading)

/-- A statement that is run in a memory comes to an ending. -/
inductive Runs : Stmt → Store → Ending → Prop
  | empty {s : Store} : Runs .empty s (.finished s)
  | assign {l : Location} {target value : Expr} {s : Store} :
      Runs (.assign l target value) s
        (.ofResult (fun _ s => .finished s) (assignment ctx reading target value s))
  | call {e : Expr} {s : Store} :
      Runs (.call e) s (.ofResult (fun _ s => .finished s) (e.denote ctx reading s))
  | nil {s : Store} : Runs (.block []) s (.finished s)
  | cons {stmt : Stmt} {rest : List Stmt} {s s' : Store} {ending : Ending}
      (first : Runs stmt s (.finished s')) (others : Runs (.block rest) s' ending) :
      Runs (.block (stmt :: rest)) s ending
  | consReturned {stmt : Stmt} {rest : List Stmt} {s s' : Store} {v : Option Word}
      (first : Runs stmt s (.returned v s')) : Runs (.block (stmt :: rest)) s (.returned v s')
  | consFailed {stmt : Stmt} {rest : List Stmt} {s : Store} {fault : Fault}
      (first : Runs stmt s (.failed fault)) : Runs (.block (stmt :: rest)) s (.failed fault)
  | ifThen {c : Expr} {body : Stmt} {s s' : Store} {ending : Ending}
      (test : c.holds ctx reading s = .ok (true, s')) (taken : Runs body s' ending) :
      Runs (.ifThen c body) s ending
  | ifThenSkipped {c : Expr} {body : Stmt} {s s' : Store}
      (test : c.holds ctx reading s = .ok (false, s')) : Runs (.ifThen c body) s (.finished s')
  | ifThenFailed {c : Expr} {body : Stmt} {s : Store} {fault : Fault}
      (test : c.holds ctx reading s = .error fault) : Runs (.ifThen c body) s (.failed fault)
  | ifElse {c : Expr} {body otherwise : Stmt} {s s' : Store} {b : Bool} {ending : Ending}
      (test : c.holds ctx reading s = .ok (b, s'))
      (taken : Runs (if b then body else otherwise) s' ending) :
      Runs (.ifElse c body otherwise) s ending
  | ifElseFailed {c : Expr} {body otherwise : Stmt} {s : Store} {fault : Fault}
      (test : c.holds ctx reading s = .error fault) :
      Runs (.ifElse c body otherwise) s (.failed fault)
  | whileDone {c : Expr} {body : Stmt} {s s' : Store}
      (test : c.holds ctx reading s = .ok (false, s')) : Runs (.whileDo c body) s (.finished s')
  | whileAgain {c : Expr} {body : Stmt} {s s' s'' : Store} {ending : Ending}
      (test : c.holds ctx reading s = .ok (true, s')) (once : Runs body s' (.finished s''))
      (again : Runs (.whileDo c body) s'' ending) : Runs (.whileDo c body) s ending
  | whileReturned {c : Expr} {body : Stmt} {s s' s'' : Store} {v : Option Word}
      (test : c.holds ctx reading s = .ok (true, s')) (once : Runs body s' (.returned v s'')) :
      Runs (.whileDo c body) s (.returned v s'')
  | whileBodyFailed {c : Expr} {body : Stmt} {s s' : Store} {fault : Fault}
      (test : c.holds ctx reading s = .ok (true, s')) (once : Runs body s' (.failed fault)) :
      Runs (.whileDo c body) s (.failed fault)
  | whileFailed {c : Expr} {body : Stmt} {s : Store} {fault : Fault}
      (test : c.holds ctx reading s = .error fault) : Runs (.whileDo c body) s (.failed fault)
  | returnValue {l : Location} {value : Expr} {s : Store} :
      Runs (.returnValue l value) s
        (.ofResult (fun w s => .returned (some w) s) (result ctx reading value s))
  | returnNothing {l : Location} {s : Store} : Runs (.returnNothing l) s (.returned none s)

variable {ctx : Context} {reading : Reading}

/-- A statement comes to one ending at most. -/
theorem Runs.unique {stmt : Stmt} {ending ending' : Ending} (h : stmt.Runs ctx reading s ending)
    (h' : stmt.Runs ctx reading s ending') : ending = ending' := by
  induction h generalizing ending' with
  | empty | assign | call | nil | returnValue | returnNothing => cases h'; rfl
  | cons _ _ ihfirst ihothers =>
    cases h' with
    | cons first others =>
      cases ihfirst first
      exact ihothers others
    | consReturned first => cases ihfirst first
    | consFailed first => cases ihfirst first
  | consReturned _ ih =>
    cases h' with
    | cons first _ => cases ih first
    | consReturned first => exact ih first
    | consFailed first => exact ih first
  | consFailed _ ih =>
    cases h' with
    | cons first _ => cases ih first
    | consReturned first => exact ih first
    | consFailed first => exact ih first
  | ifThen test _ ih =>
    cases h' with
    | ifThen test' taken =>
      cases test.symm.trans test'
      exact ih taken
    | ifThenSkipped test' => cases test.symm.trans test'
    | ifThenFailed test' => cases test.symm.trans test'
  | ifThenSkipped test =>
    cases h' with
    | ifThen test' _ => cases test.symm.trans test'
    | ifThenSkipped test' => cases test.symm.trans test'; rfl
    | ifThenFailed test' => cases test.symm.trans test'
  | ifThenFailed test =>
    cases h' with
    | ifThen test' _ => cases test.symm.trans test'
    | ifThenSkipped test' => cases test.symm.trans test'
    | ifThenFailed test' => cases test.symm.trans test'; rfl
  | ifElse test _ ih =>
    cases h' with
    | ifElse test' taken =>
      cases test.symm.trans test'
      exact ih taken
    | ifElseFailed test' => cases test.symm.trans test'
  | ifElseFailed test =>
    cases h' with
    | ifElse test' _ => cases test.symm.trans test'
    | ifElseFailed test' => cases test.symm.trans test'; rfl
  | whileDone test =>
    cases h' with
    | whileDone test' => cases test.symm.trans test'; rfl
    | whileAgain test' _ _ | whileReturned test' _ | whileBodyFailed test' _
    | whileFailed test' => cases test.symm.trans test'
  | whileAgain test _ _ ihonce ihagain =>
    cases h' with
    | whileAgain test' once again =>
      cases test.symm.trans test'
      cases ihonce once
      exact ihagain again
    | whileReturned test' once | whileBodyFailed test' once =>
      cases test.symm.trans test'
      cases ihonce once
    | whileDone test' | whileFailed test' => cases test.symm.trans test'
  | whileReturned test _ ih | whileBodyFailed test _ ih =>
    cases h' with
    | whileAgain test' once _ =>
      cases test.symm.trans test'
      cases ih once
    | whileReturned test' once | whileBodyFailed test' once =>
      cases test.symm.trans test'
      exact ih once
    | whileDone test' | whileFailed test' => cases test.symm.trans test'
  | whileFailed test =>
    cases h' with
    | whileFailed test' => cases test.symm.trans test'; rfl
    | whileAgain test' _ _ | whileReturned test' _ | whileBodyFailed test' _
    | whileDone test' => cases test.symm.trans test'

end Stmt

end BlockLang
