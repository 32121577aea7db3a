import BlockLang.Environment

/-!
# Words, memory and what surrounds a function

The machine works on words of 32 bits, for integers and for addresses; its memory is made of bytes.
A character takes one byte and has no sign, an integer four, the lowest first. A context says what
the names and literals of a body stand for and what the functions do that it calls.
-/

namespace BlockLang

/-- A word: an integer or an address. -/
abbrev Word := Int32

/-- The word of a byte without sign. -/
def Word.ofByte (b : UInt8) : Word := b.toUInt32.toInt32

/-! ### Operators -/

/-- The result of an operation. Sums, differences and products wrap around.
Quotients are rounded towards zero; a division by zero and the quotient that is
too large have no result, and neither have the remainders that belong to them. -/
def Arith.compute? (operator : Arith) (a b : Word) : Option Word :=
  match operator with
  | .add => some (a + b)
  | .sub => some (a - b)
  | .mul => some (a * b)
  | .div => if b = 0 ∨ a = Int32.minValue ∧ b = -1 then none else some (a / b)
  | .mod => if b = 0 ∨ a = Int32.minValue ∧ b = -1 then none else some (a % b)

/-- Whether a relation holds between signed words. -/
def Relation.holds (relation : Relation) (a b : Word) : Bool :=
  match relation with
  | .equal => a = b
  | .notEqual => a ≠ b
  | .greater => b < a
  | .less => a < b
  | .greaterEqual => b ≤ a
  | .lessEqual => a ≤ b

/-! ### Memory -/

/-- The bytes of the memory by their addresses. -/
abbrev Store := Word → UInt8

namespace Store

/-- The value that stands at an address. -/
def read (s : Store) (ty : Ty) (a : Word) : Word :=
  if ty = .char then Word.ofByte (s a)
  else ((s a).toUInt32 ||| (s (a + 1)).toUInt32 <<< 8 ||| (s (a + 2)).toUInt32 <<< 16 |||
    (s (a + 3)).toUInt32 <<< 24).toInt32

/-- The memory after a value was written to an address, a character as one byte. -/
def write (s : Store) (ty : Ty) (a w : Word) : Store := fun b =>
  if b = a then w.toUInt32.toUInt8
  else if ty = .char then s b
  else if b = a + 1 then (w.toUInt32 >>> 8).toUInt8
  else if b = a + 2 then (w.toUInt32 >>> 16).toUInt8
  else if b = a + 3 then (w.toUInt32 >>> 24).toUInt8
  else s b

theorem read_of_ne_char (s : Store) {ty : Ty} (h : ty ≠ .char) (a : Word) :
    s.read ty a = s.read .int a := by
  rw [read, if_neg h]
  rfl

theorem write_of_ne_char (s : Store) {ty : Ty} (h : ty ≠ .char) (a w : Word) :
    s.write ty a w = s.write .int a w := by
  funext b
  simp [write, h]

end Store

/-- What an expression stands for: a place in memory or a value. -/
inductive Denoted
  | place (shape : Shape) (address : Word)
  | value (word : Word)
  deriving DecidableEq

namespace Denoted

/-- The type and the address of a place for a scalar. -/
def scalar? : Denoted → Option (Ty × Word)
  | place ⟨ty, []⟩ a => some (ty, a)
  | _ => none

/-- The value, for a place the one that stands there. Arrays have none. -/
def read? (s : Store) : Denoted → Option Word
  | place ⟨ty, []⟩ a => some (s.read ty a)
  | place ⟨_, _ :: _⟩ _ => none
  | value w => some w

/-- The value in the place of a place, where there is one. -/
def settled (s : Store) (d : Denoted) : Denoted := ((d.read? s).map value).getD d

end Denoted

/-! ### Contexts -/

/-- What is handed over to a function: a value or the address of a place. -/
inductive Passed
  | value (word : Word)
  | reference (address : Word)
  deriving DecidableEq

/-- What surrounds the body of a function. -/
structure Context where
  /-- The declarations that it sees. -/
  env : Environment
  /-- The address of what a name stands for. Two names may have the same. -/
  address : String → Word
  /-- The number of rows of a parameter whose leading extent is left open. -/
  rows : String → Nat
  /-- The address of a string literal. -/
  literal : String → Word
  /-- The result of a call and the memory after it, unless the call does not come
  back. -/
  call : FunctionLabel → List Passed → Store → Option (Word × Store)

namespace Context

/-- The place that a variable or a parameter stands for. -/
def place? (ctx : Context) (x : String) : Option Denoted :=
  match (ctx.env.find? x).map Binding.declaration with
  | some (.var v) => some (.place ⟨v.ty, v.extents⟩ (ctx.address x))
  | some (.param p) =>
      some (.place ⟨p.ty, if p.isOpen then ctx.rows x :: p.extents else p.extents⟩ (ctx.address x))
  | _ => none

end Context

end BlockLang
