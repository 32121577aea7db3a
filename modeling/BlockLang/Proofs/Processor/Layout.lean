import BlockLang.Assembly
import BlockLang.Proofs.Processor.Basic

/-!
# Where the operands of a function are

The operands of a quad stand for cells in the frames that can be reached, or for the cell whose
address was passed. A quad writes one cell at most, and all that it reads is read before.
-/

namespace BlockLang

open Option

/-- The offsets of what a function can name. Variables and parameters are those of the
scopes around it, temporaries are its own. -/
structure Layout where
  code : Code
  env : Environment
  /-- The offset of a variable of a scope from the base of its frame. -/
  slot? : Int → String → Option Int
  /-- The parameters of the function that a scope belongs to. -/
  parameters : Int → List Parameter
  /-- The offset of a temporary from the base of the running frame. -/
  temp? : Nat → Option Int

/-- What is there when a quad has been performed. -/
structure Outcome where
  /-- The quad that comes next. -/
  next : Nat
  store : Store
  /-- The result of the function, if the quad gives one. -/
  result : Option Word

namespace Layout

variable (l : Layout) (base : Nat → Word) (s : Store)

/-! ### Operands -/

/-- The number of frames from the running one out to that of a scope. -/
def levels (scope : Int) : Nat := (l.env.scope - scope).toNat

def tempAddress? (n : Nat) : Option Word := (l.temp? n).map fun offset => base 0 + .ofInt offset

def argumentAddress? (scope : Int) (x : String) : Option Word :=
  ((l.parameters scope).findIdx? fun q => q.name = x).map fun i =>
    base (l.levels scope) + .ofNat (12 + 4 * i)

/-- The cell that a name stands for: its type and its address. -/
def named? (x : String) : Option (Ty × Word) :=
  match l.env.find? x with
  | some ⟨.var v, scope⟩ =>
      (l.slot? scope x).map fun offset => (v.ty, base (l.levels scope) + .ofInt offset)
  | some ⟨.param q, scope⟩ =>
      (l.argumentAddress? base scope x).map fun a =>
        (q.ty, if q.byReference then s.read .int a else a)
  | _ => none

/-- The cell that an operand stands for. A row of an array counts as its address. -/
def place? : Operand → Option (Ty × Word)
  | .temp n => do return (← l.code.temps[n]?, ← l.tempAddress? base n)
  | .cell n => do
      let info ← l.code.cell? n
      return (if info.remaining = 0 then info.element else .int,
        s.read .int (← l.tempAddress? base n))
  | .name x => l.named? base s x
  | _ => none

variable {l base s} {n : Nat} {x : String} {ty : Ty} {a : Word} {scope : Int}

theorem place?_temp_eq_some : l.place? base s (.temp n) = some (ty, a) ↔
    l.code.temps[n]? = some ty ∧ l.tempAddress? base n = some a := by
  simp [place?, bind, bind_eq_some_iff, pure]

theorem place?_cell_eq_some : l.place? base s (.cell n) = some (ty, a) ↔
    ∃ info t, l.code.cell? n = some info ∧ l.tempAddress? base n = some t ∧
      (if info.remaining = 0 then info.element else .int) = ty ∧ s.read .int t = a := by
  simp [place?, bind, bind_eq_some_iff, pure]

theorem named?_var {v : Variable} (h : l.env.find? x = some ⟨.var v, scope⟩) :
    l.named? base s x = (l.slot? scope x).map fun offset =>
      (v.ty, base (l.levels scope) + .ofInt offset) := by
  rw [named?, h]

theorem named?_param {q : Parameter} (h : l.env.find? x = some ⟨.param q, scope⟩) :
    l.named? base s x = (l.argumentAddress? base scope x).map fun a =>
      (q.ty, if q.byReference then s.read .int a else a) := by
  rw [named?, h]

variable (l base s)

def value? : Operand → Option Word
  | .int w => some w
  | .char b => some (.ofByte b)
  | o => (l.place? base s o).map fun (ty, a) => s.read ty a

variable (image : Image) (literals : List String)

def address? : Operand → Option Word
  | .string t => (literals.idxOf? t).map fun n => image.data (Assembly.stringLabel n)
  | o => (l.place? base s o).map Prod.snd

/-! ### Quads -/

/-- The effect of a quad that is neither part of a call nor the start or the end of a
function. There is none if an operand has no meaning or a division traps. -/
def effect? (q : Quad) (i : Nat) : Option Outcome :=
  match q.op with
  | .assign => do
      let w ← l.value? base s (← q.first)
      if q.output = some .returnValue then return ⟨i + 1, s, some w⟩
      let (ty, a) ← l.place? base s (← q.output)
      return ⟨i + 1, s.write ty a w, none⟩
  | .array => do
      let .cell n ← q.output | none
      let info ← l.code.cell? n
      let start ← l.address? base s image literals (← q.first)
      let index ← l.value? base s (← q.second)
      let a ← l.tempAddress? base n
      return ⟨i + 1, s.write .int a (start + .ofNat info.element.size * index), none⟩
  | .arith operator => do
      let a ← l.value? base s (← q.first)
      let b ← l.value? base s (← q.second)
      let w ← operator.compute? a b
      let (ty, target) ← l.place? base s (← q.output)
      return ⟨i + 1, s.write ty target w, none⟩
  | .jump => do
      let .target t ← q.output | none
      return ⟨t, s, none⟩
  | .compare relation => do
      let .target t ← q.output | none
      let a ← l.value? base s (← q.first)
      let b ← l.value? base s (← q.second)
      return ⟨if relation.holds a b then t else i + 1, s, none⟩
  | _ => none

variable {l base s image literals} {first second : Option Operand} {x y : Operand} {i : Nat}
  {o : Outcome}

theorem effect?_returnValue :
    l.effect? base s image literals ⟨.assign, some x, second, some .returnValue⟩ i = some o ↔
      ∃ w, l.value? base s x = some w ∧ ⟨i + 1, s, some w⟩ = o := by
  simp [effect?, bind_eq_some_iff]

theorem effect?_assign (hy : y ≠ .returnValue) :
    l.effect? base s image literals ⟨.assign, some x, second, some y⟩ i = some o ↔
      ∃ w ty a, l.value? base s x = some w ∧ l.place? base s y = some (ty, a) ∧
        ⟨i + 1, s.write ty a w, none⟩ = o := by
  simp [effect?, hy, bind_eq_some_iff]

theorem effect?_array {n : Nat} :
    l.effect? base s image literals ⟨.array, some x, some y, some (.cell n)⟩ i = some o ↔
      ∃ info start index a, l.code.cell? n = some info ∧
        l.address? base s image literals x = some start ∧ l.value? base s y = some index ∧
        l.tempAddress? base n = some a ∧
        ⟨i + 1, s.write .int a (start + .ofNat info.element.size * index), none⟩ = o := by
  simp [effect?, bind_eq_some_iff]

theorem effect?_arith {operator : Arith} {z : Operand} :
    l.effect? base s image literals ⟨.arith operator, some x, some y, some z⟩ i = some o ↔
      ∃ a b w ty target, l.value? base s x = some a ∧ l.value? base s y = some b ∧
        operator.compute? a b = some w ∧ l.place? base s z = some (ty, target) ∧
        ⟨i + 1, s.write ty target w, none⟩ = o := by
  simp [effect?, bind_eq_some_iff]

theorem effect?_compare {relation : Relation} {t : Nat} :
    l.effect? base s image literals ⟨.compare relation, some x, some y, some (.target t)⟩ i =
        some o ↔
      ∃ a b, l.value? base s x = some a ∧ l.value? base s y = some b ∧
        ⟨if relation.holds a b then t else i + 1, s, none⟩ = o := by
  simp [effect?, bind_eq_some_iff]

theorem effect?_jump {t : Nat} :
    l.effect? base s image literals ⟨.jump, first, second, some (.target t)⟩ i = some o ↔
      ⟨t, s, none⟩ = o := by
  simp [effect?]

end Layout

end BlockLang
