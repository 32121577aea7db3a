import BlockLang.Code
import BlockLang.Proofs.Memory
import Mathlib.Logic.Function.Basic

/-!
# A machine that runs quads

The machine holds the temporaries, the memory, the result of the running function as far as it is
known, and what has been handed over for the next call. It stops at the end of a function and at a
return, and is stuck where a quad has no meaning, such as a division by zero.
-/

namespace BlockLang

/-- A moment of the run of a function body. -/
structure Machine where
  /-- The quad that comes next. -/
  quad : Nat
  temps : Nat → Word
  store : Store
  /-- What was last assigned to the result of the function. -/
  result : Option Word
  /-- The arguments of the next call. -/
  arguments : List Passed
  /-- The temporary that takes the result of the next call. -/
  destination : Option Nat

namespace Machine

/-- A moment between statements: nothing waits for a call, and no result is known. -/
def idle (quad : Nat) (temps : Nat → Word) (store : Store) : Machine :=
  ⟨quad, temps, store, none, [], none⟩

/-- The machine at the next quad. -/
def advance (m : Machine) : Machine := { m with quad := m.quad + 1 }

/-- The machine after a word was put into a temporary. -/
def setTemp (m : Machine) (n : Nat) (w : Word) : Machine :=
  { m with temps := Function.update m.temps n w }

section Run

variable (ctx : Context) (code : Code)

/-! ### Operands -/

/-- The place that an operand stands for, if it is a scalar that can be assigned
to. -/
def scalar? (m : Machine) : Operand → Option (Ty × Word)
  | .cell n => (code.cell? n).bind fun info =>
      if info.remaining = 0 then some (info.element, m.temps n) else none
  | .name x => (ctx.place? x).bind Denoted.scalar?
  | _ => none

def value? (m : Machine) : Operand → Option Word
  | .temp n => some (m.temps n)
  | .int w => some w
  | .char b => some (.ofByte b)
  | o => (m.scalar? ctx code o).map fun (ty, a) => m.store.read ty a

def address? (m : Machine) : Operand → Option Word
  | .cell n => some (m.temps n)
  | .name x => some (ctx.address x)
  | .string s => some (ctx.literal s)
  | _ => none

/-! ### Quads -/

/-- Assigns a word to an operand or to the result of the function. -/
def assign? (m : Machine) (o : Operand) (w : Word) : Option Machine :=
  if o = .returnValue then some { m with result := some w }
  else (m.scalar? ctx code o).map fun (ty, a) => { m with store := m.store.write ty a w }

/-- Hands over an argument of the next call or the place for its result. -/
def pass? (m : Machine) (a : Operand) : Operand → Option Machine
  | .byValue => (m.value? ctx code a).map fun w =>
      { m with arguments := m.arguments ++ [.value w] }
  | .byReference => (m.address? ctx a).map fun w =>
      { m with arguments := m.arguments ++ [.reference w] }
  | .returnDestination =>
      match a with
      | .temp n => some { m with destination := some n }
      | _ => none
  | _ => none

/-- Calls a function with what has been handed over. -/
def call? (m : Machine) (label : FunctionLabel) : Option Machine :=
  (ctx.call label m.arguments m.store).map fun (w, store) =>
    let returned := { m with store, arguments := [], destination := none }
    match m.destination with
    | some n => returned.setTemp n w
    | none => returned

/-- The effect of a quad. -/
def perform? (q : Quad) (m : Machine) : Option Machine :=
  match q.op with
  | .unit | .endUnit | .ret => none
  | .assign => do
      let w ← m.value? ctx code (← q.first)
      let m ← m.assign? ctx code (← q.output) w
      return m.advance
  | .array => do
      let .cell n ← q.output | none
      let info ← code.cell? n
      let base ← m.address? ctx (← q.first)
      let i ← m.value? ctx code (← q.second)
      return (m.setTemp n (base + .ofNat info.element.size * i)).advance
  | .arith operator => do
      let .temp n ← q.output | none
      let a ← m.value? ctx code (← q.first)
      let b ← m.value? ctx code (← q.second)
      let w ← operator.compute? a b
      return (m.setTemp n w).advance
  | .jump => do
      let .target t ← q.output | none
      return { m with quad := t }
  | .compare relation => do
      let .target t ← q.output | none
      let a ← m.value? ctx code (← q.first)
      let b ← m.value? ctx code (← q.second)
      return if relation.holds a b then { m with quad := t } else m.advance
  | .par => do
      let m ← m.pass? ctx code (← q.first) (← q.second)
      return m.advance
  | .call => do
      let .function label ← q.output | none
      let m ← m.call? ctx label
      return m.advance

/-- The machine after the quad that comes next, unless it stops there or the quad has
no meaning. -/
def step? (m : Machine) : Option Machine := do m.perform? ctx code (← code.quads[m.quad]?)

/-! ### Runs -/

/-- So many quads lead from the first moment to the second. -/
inductive Steps : Nat → Machine → Machine → Prop
  | refl (m : Machine) : Steps 0 m m
  | cons {n : Nat} {m m1 m2 : Machine} (first : m.step? ctx code = some m1)
      (rest : Steps n m1 m2) : Steps (n + 1) m m2

/-- A run leads from the first moment to the second. -/
def Reaches (m m' : Machine) : Prop := ∃ n, Steps ctx code n m m'

/-- The machine has stopped at the end of a function or at a return. -/
def Halted (op : Opcode) (m : Machine) : Prop :=
  (op = .endUnit ∨ op = .ret) ∧ ∃ q, code.quads[m.quad]? = some q ∧ q.op = op

/-- The machine has stopped at the end of a function, which is the quad `last`. -/
def Finished (last : Nat) (s : Store) (m : Machine) : Prop :=
  m.Halted code .endUnit ∧ m.quad = last ∧ m.store = s

/-- The machine has stopped at a return among the quads from `first` up to `last`. The
result of the function is known if the return has a value. -/
def Returned (first last : Nat) (v : Option Word) (s : Store) (m : Machine) : Prop :=
  m.Halted code .ret ∧ first ≤ m.quad ∧ m.quad < last ∧ m.store = s ∧ m.result = v

/-- The machine is at a quad that has no meaning. -/
def Stuck (m : Machine) : Prop :=
  m.step? ctx code = none ∧ ∀ op, ¬ m.Halted code op

end Run

variable {ctx : Context} {code : Code} {m m1 m2 : Machine} {n k : Nat}

theorem step?_eq {q : Quad} (hq : code.quads[m.quad]? = some q) :
    m.step? ctx code = m.perform? ctx code q :=
  congrArg (· >>= fun q => m.perform? ctx code q) hq

namespace Steps

theorem single (h : m.step? ctx code = some m1) : Steps ctx code 1 m m1 := .cons h (.refl m1)

variable (h : Steps ctx code n m m1)

include h

theorem trans (h' : Steps ctx code k m1 m2) : Steps ctx code (n + k) m m2 := by
  induction h with
  | refl => rwa [Nat.zero_add]
  | cons first _ ih =>
    rw [Nat.add_right_comm]
    exact .cons first (ih h')

/-- A run can be cut after any number of quads. -/
theorem take (hk : k ≤ n) : ∃ m2, Steps ctx code k m m2 := by
  induction k generalizing n m with
  | zero => exact ⟨m, .refl m⟩
  | succ k ih =>
    cases h with
    | refl => omega
    | cons first rest =>
      obtain ⟨m2, h2⟩ := ih rest (Nat.le_of_succ_le_succ hk)
      exact ⟨m2, .cons first h2⟩

/-- Of two runs from one moment, the one that comes to a standstill is the longer. -/
theorem le_of_standstill (h1 : m1.step? ctx code = none) (h' : Steps ctx code k m m2) : k ≤ n := by
  induction h' generalizing n with
  | refl => exact Nat.zero_le n
  | cons first' _ ih =>
    cases h with
    | refl => rw [h1] at first'; cases first'
    | cons first rest =>
      rw [first] at first'
      cases first'
      exact Nat.succ_le_succ (ih rest)

theorem unique (h' : Steps ctx code n m m2) : m1 = m2 := by
  induction h with
  | refl => cases h'; rfl
  | cons first _ ih =>
    cases h' with
    | cons first' rest' =>
      rw [first] at first'
      cases first'
      exact ih rest'

end Steps

/-- The machine stops in one way only. -/
theorem Halted.unique {op op' : Opcode} (h : m.Halted code op) (h' : m.Halted code op') :
    op = op' := by
  obtain ⟨-, q, hq, rfl⟩ := h
  obtain ⟨-, r, hr, rfl⟩ := h'
  rw [hq] at hr
  cases hr
  rfl

/-- Where the machine has stopped there is no further step. -/
theorem Halted.step?_eq_none {op : Opcode} (h : m.Halted code op) : m.step? ctx code = none := by
  obtain ⟨hop, q, hq, rfl⟩ := h
  rw [step?_eq hq, perform?]
  rcases hop with hop | hop <;> rw [hop]

namespace Reaches

theorem refl (m : Machine) : Reaches ctx code m m := ⟨0, .refl m⟩

theorem single (h : m.step? ctx code = some m1) : Reaches ctx code m m1 := ⟨1, .single h⟩

theorem trans (h : Reaches ctx code m m1) (h' : Reaches ctx code m1 m2) :
    Reaches ctx code m m2 := by
  obtain ⟨n, hn⟩ := h
  obtain ⟨k, hk⟩ := h'
  exact ⟨n + k, hn.trans hk⟩

/-- A run that goes on after another one goes on from the start. -/
theorem goesOn (h : Reaches ctx code m m1) (h1 : ∃ m2, Steps ctx code n m1 m2) :
    ∃ m2, Steps ctx code n m m2 := by
  obtain ⟨k, hk⟩ := h
  obtain ⟨m2, hn⟩ := h1
  exact (hk.trans hn).take (Nat.le_add_left n k)

/-- A run to another quad makes a run that goes on longer. -/
theorem goesOn_succ (h : Reaches ctx code m m1) (hquad : m.quad ≠ m1.quad)
    (h1 : ∃ m2, Steps ctx code n m1 m2) : ∃ m2, Steps ctx code (n + 1) m m2 := by
  obtain ⟨k, hk⟩ := h
  obtain ⟨m2, hn⟩ := h1
  cases hk with
  | refl => exact absurd rfl hquad
  | @cons k _ _ _ first rest => exact (Steps.cons first (rest.trans hn)).take (by omega)

/-- A run comes to a standstill in one way only. -/
theorem standstill_unique (h : Reaches ctx code m m1) (h1 : m1.step? ctx code = none)
    (h' : Reaches ctx code m m2) (h2 : m2.step? ctx code = none) : m1 = m2 := by
  obtain ⟨n, hn⟩ := h
  obtain ⟨k, hk⟩ := h'
  obtain rfl := Nat.le_antisymm (hk.le_of_standstill h2 hn) (hn.le_of_standstill h1 hk)
  exact hn.unique hk

end Reaches

end Machine

end BlockLang
