import BlockLang.Instruction
import BlockLang.Proofs.Memory
import Mathlib

/-!
# A processor that runs assembly

The processor has registers of 32 bits, flags and a memory of bytes. A call of a label that the
program does not define runs a standard routine. The flags are known only after a comparison, and
without them a conditional jump is not possible. Nothing can be pushed below the floor of the
stack.
-/

namespace BlockLang

open Arith Function Int32 Option

/-! ### Flags -/

/-- The flags that a conditional jump looks at. -/
structure Flags where
  zero : Bool
  sign : Bool
  overflow : Bool
  deriving DecidableEq

namespace Flags

def ofComparison (a b : Word) : Flags :=
  ⟨a - b = 0, a - b < 0, (a - b).toInt ≠ a.toInt - b.toInt⟩

def holds (f : Flags) : Relation → Bool
  | .equal => f.zero
  | .notEqual => !f.zero
  | .less => f.sign != f.overflow
  | .greaterEqual => f.sign == f.overflow
  | .lessEqual => f.zero || f.sign != f.overflow
  | .greater => !f.zero && f.sign == f.overflow

theorem zero_ofComparison (a b : Word) : (ofComparison a b).zero = decide (a = b) := by
  apply decide_eq_decide.mpr
  rw [Int32.sub_eq_iff_eq_add, Int32.zero_add]

/-- The sign of a difference is wrong exactly if it overflows. -/
theorem sign_ne_overflow (a b : Word) :
    ((ofComparison a b).sign != (ofComparison a b).overflow) = decide (a < b) := by
  have ha := a.le_toInt
  have ha' := a.toInt_lt
  have hb := b.le_toInt
  have hb' := b.toInt_lt
  have hsign : (a - b < 0) ↔ (a - b).toInt < 0 := lt_iff_toInt_lt
  have hless : a < b ↔ a.toInt < b.toInt := lt_iff_toInt_lt
  have hsub := toInt_sub a b
  simp only [ofComparison, hsign, hless]
  rw [hsub]
  by_cases hlt : a.toInt < b.toInt <;>
    simp only [Int.bmod_def, hlt, decide_true, decide_false, bne_iff_ne, ne_eq,
      bne_eq_false_iff_eq, decide_eq_decide] <;> omega

/-- A conditional jump is taken if its relation holds between signed words. -/
theorem holds_ofComparison (relation : Relation) (a b : Word) :
    (ofComparison a b).holds relation = relation.holds a b := by
  have hzero := zero_ofComparison a b
  have hless := sign_ne_overflow a b
  have hsame : ((ofComparison a b).sign == (ofComparison a b).overflow) = !decide (a < b) := by
    rw [← hless, bne, Bool.not_not]
  have hle : a ≤ b ↔ a = b ∨ a < b := by
    rw [le_iff_toInt_le, lt_iff_toInt_lt, ← toInt_inj]
    omega
  have hge : b ≤ a ↔ ¬ a < b := by
    rw [le_iff_toInt_le, lt_iff_toInt_lt, Int.not_lt]
  have hgt : b < a ↔ ¬ (a = b ∨ a < b) := by
    rw [lt_iff_toInt_lt, lt_iff_toInt_lt, ← toInt_inj]
    omega
  cases relation with
  | equal => exact hzero
  | notEqual => simp only [holds, Relation.holds, hzero, decide_not, ne_eq]
  | less => exact hless
  | greaterEqual => simp only [holds, Relation.holds, hsame, hge, decide_not]
  | lessEqual => simp only [holds, Relation.holds, hzero, hless, hle, Bool.decide_or]
  | greater =>
    simp only [holds, Relation.holds, hzero, hsame, hgt, decide_not, Bool.decide_or, Bool.not_or]

end Flags

/-! ### Registers and memory -/

/-- The registers, the flags as far as they are known, and the memory. -/
structure Processor where
  registers : Register → Word
  flags : Option Flags
  store : Store

namespace Processor

def set (σ : Processor) (r : Register) (w : Word) : Processor :=
  { σ with registers := update σ.registers r w }

def withStore (σ : Processor) (s : Store) : Processor := { σ with store := s }

def withFlags (σ : Processor) (f : Option Flags) : Processor := { σ with flags := f }

def address (σ : Processor) (m : Memory) : Word := σ.registers m.base + .ofInt m.offset

theorem address_mk (σ : Processor) (r : Register) (offset : Int) :
    σ.address ⟨r, offset⟩ = σ.registers r + .ofInt offset := rfl

section Simp

variable (σ : Processor) (r : Register) (w : Word) (s : Store) (f : Option Flags)

@[simp] theorem registers_set_self : (σ.set r w).registers r = w := update_self ..

theorem registers_set_of_ne {r' : Register} (h : r' ≠ r) :
    (σ.set r w).registers r' = σ.registers r' :=
  update_of_ne h _ _

@[simp] theorem store_set : (σ.set r w).store = σ.store := rfl

@[simp] theorem flags_set : (σ.set r w).flags = σ.flags := rfl

@[simp] theorem registers_withStore : (σ.withStore s).registers = σ.registers := rfl

@[simp] theorem store_withStore : (σ.withStore s).store = s := rfl

@[simp] theorem registers_withFlags : (σ.withFlags f).registers = σ.registers := rfl

@[simp] theorem store_withFlags : (σ.withFlags f).store = σ.store := rfl

@[simp] theorem flags_withFlags : (σ.withFlags f).flags = f := rfl

end Simp

/-- The registers outside of a list and the memory are kept. -/
structure Keeps (rs : List Register) (σ σ' : Processor) : Prop where
  registers : ∀ r, r ∉ rs → σ'.registers r = σ.registers r
  store : σ'.store = σ.store

namespace Keeps

variable {rs rs' : List Register} {σ σ1 σ2 : Processor}

theorem refl (rs : List Register) (σ : Processor) : Keeps rs σ σ := ⟨fun _ _ => rfl, rfl⟩

theorem trans (h : Keeps rs σ σ1) (h' : Keeps rs σ1 σ2) : Keeps rs σ σ2 :=
  ⟨fun r hr => (h'.registers r hr).trans (h.registers r hr), h'.store.trans h.store⟩

theorem mono (h : Keeps rs σ σ1) (hrs : rs ⊆ rs') : Keeps rs' σ σ1 :=
  ⟨fun r hr => h.registers r fun hmem => hr (hrs hmem), h.store⟩

theorem set {r : Register} (hr : r ∈ rs) (w : Word) : Keeps rs σ (σ.set r w) where
  registers _ hr' := registers_set_of_ne _ _ _ (ne_of_mem_of_not_mem hr hr').symm
  store := rfl

theorem withFlags (f : Option Flags) : Keeps rs σ (σ.withFlags f) := ⟨fun _ _ => rfl, rfl⟩

end Keeps

end Processor

/-! ### Instructions -/

/-- Where a program has been loaded, and what surrounds it. -/
structure Image where
  /-- The addresses of the literals by their labels. -/
  data : String → Word
  /-- The addresses of the lines. -/
  code : Nat → Word
  /-- The lowest address of the stack. -/
  floor : Nat
  /-- What a standard routine does between its first instruction and its return. -/
  routine : String → Processor → Processor → Prop

namespace Word

/-- The number of an address. -/
def number (a : Word) : Nat := a.toUInt32.toNat

/-- The number of an address and the signed number differ by the sign. -/
theorem number_eq (a : Word) :
    (a.number : Int) = if a < 0 then a.toInt + 2 ^ 32 else a.toInt := by
  have hneg : a < 0 ↔ a.toInt < 0 := lt_iff_toInt_lt
  have hsize := a.toUInt32.toNat_lt
  have hint : a.toInt =
      if 2 * a.number < 2 ^ 32 then (a.number : Int) else a.number - (2 ^ 32 : Nat) :=
    BitVec.toInt_eq_toNat_cond a.toBitVec
  rw [if_congr hneg rfl rfl]
  change a.number < 2 ^ 32 at hsize
  split at hint <;> split <;> omega

/-- The only quotient of words that is too large. -/
theorem tdiv_lt_iff {a b : Word} (hb : b ≠ 0) :
    (-2 ^ 31 ≤ a.toInt.tdiv b.toInt ∧ a.toInt.tdiv b.toInt < 2 ^ 31) ↔
      ¬ (a = minValue ∧ b = -1) := by
  have ha := a.le_toInt
  have ha' := a.toInt_lt
  have hne : b.toInt ≠ 0 := fun h => hb (toInt_inj.mp h)
  have hminus : b = -1 ↔ b.toInt = -1 := toInt_inj.symm
  have hmin : a = minValue ↔ a.toInt = -2 ^ 31 := toInt_inj.symm
  rw [hminus, hmin]
  by_cases hone : b.toInt = -1
  · rw [hone, Int.tdiv_neg, Int.tdiv_one]
    omega
  have habs : (a.toInt.tdiv b.toInt).natAbs ≤ a.toInt.natAbs := Int.natAbs_tdiv_le_natAbs _ _
  by_cases hone' : b.toInt = 1
  · rw [hone', Int.tdiv_one]
    omega
  -- every other divisor at least halves the dividend
  have hhalf : (a.toInt.tdiv b.toInt).natAbs ≤ a.toInt.natAbs / 2 := by
    rw [Int.natAbs_tdiv]
    exact Nat.div_le_div_left (by omega) (by decide)
  omega

end Word

namespace Register

def isWhole : Register → Bool
  | al | dl => false
  | _ => true

/-- The register that a low byte belongs to. -/
def whole? : Register → Option Register
  | al => some eax
  | dl => some edx
  | _ => none

end Register

/-- The word that an operand of an instruction stands for. -/
def Value.word? (image : Image) (σ : Processor) : Value → Option Word
  | register r => if r.isWhole then some (σ.registers r) else none
  | immediate n => some (.ofInt n)
  | byte _ => none
  | dword m => some (σ.store.read .int (σ.address m))
  | offset l => some (image.data l)

namespace Processor

/-- Puts a word on the stack, unless it would lie below the floor. -/
def push? (image : Image) (σ : Processor) (w : Word) : Option Processor :=
  let top := σ.registers .esp
  if image.floor + 4 ≤ top.number then
    some ((σ.set .esp (top - 4)).withStore (σ.store.write .int (top - 4) w))
  else none

/-- Divides the number in `edx` and `eax` by a word that is not zero, if the quotient is
not too large. -/
def divide? (σ : Processor) (divisor : Word) : Option Processor :=
  let dividend := (σ.registers .edx).toInt * 2 ^ 32 + (σ.registers .eax).number
  let quotient := dividend.tdiv divisor.toInt
  if divisor ≠ 0 ∧ -2 ^ 31 ≤ quotient ∧ quotient < 2 ^ 31 then
    some (((σ.set .eax (.ofInt quotient)).set .edx
      (.ofInt (dividend.tmod divisor.toInt))).withFlags none)
  else none

/-- The sign in front of a word gives the same number in twice the width. -/
theorem dividend_eq (a : Word) :
    ((if a < 0 then -1 else 0 : Word).toInt * 2 ^ 32 + a.number : Int) = a.toInt := by
  rw [Word.number_eq]
  split
  · rw [show (-1 : Word).toInt = -1 from rfl]
    omega
  · rw [show (0 : Word).toInt = 0 from rfl]
    omega

/-- After the sign has been put in front of the dividend, division gives the quotient and
the remainder where they have a value. -/
theorem divide?_eq {σ : Processor} {a b : Word} (heax : σ.registers .eax = a)
    (hedx : σ.registers .edx = if a < 0 then -1 else 0) :
    σ.divide? b = (compute? .div a b).bind fun q => (compute? .mod a b).map fun r =>
      ((σ.set .eax q).set .edx r).withFlags none := by
  have hguard : (b ≠ 0 ∧ -2 ^ 31 ≤ a.toInt.tdiv b.toInt ∧ a.toInt.tdiv b.toInt < 2 ^ 31) ↔
      ¬ (b = 0 ∨ a = minValue ∧ b = -1) := by
    rw [not_or]
    exact and_congr_right Word.tdiv_lt_iff
  unfold divide?
  rw [heax, hedx]
  simp only [dividend_eq]
  rw [if_congr hguard rfl rfl, compute?, compute?]
  by_cases htrap : b = 0 ∨ a = minValue ∧ b = -1
  · simp [htrap]
  · have hquotient : ofInt (a.toInt.tdiv b.toInt) = a / b := by
      rw [ofInt_tdiv a.minValue_le_toInt a.toInt_le b.minValue_le_toInt b.toInt_le,
        ofInt_toInt, ofInt_toInt]
    have hremainder : ofInt (a.toInt.tmod b.toInt) = a % b := by
      rw [← toInt_mod, ofInt_toInt]
    simp only [htrap, not_false_eq_true, if_true, if_false, bind_some, map_some,
      hquotient, hremainder]

/-- An operation on a register, after which the flags are not known. -/
def operate? (image : Image) (σ : Processor) (operation : Word → Word → Word) (target : Register)
    (source : Value) : Option Processor :=
  if target.isWhole then
    (source.word? image σ).map fun w =>
      (σ.set target (operation (σ.registers target) w)).withFlags none
  else none

end Processor

/-- The effect of an instruction that leads to the next line. The top of the stack is not
moved below the floor. -/
def Instruction.exec? (image : Image) (σ : Processor) : Instruction → Option Processor
  | directive _ | label _ => some σ
  | mov (.register target) source =>
      if target.isWhole then (source.word? image σ).map (σ.set target) else none
  | mov (.dword m) (.register source) =>
      if source.isWhole then
        some (σ.withStore (σ.store.write .int (σ.address m) (σ.registers source)))
      else none
  | mov (.byte m) (.register source) =>
      source.whole?.map fun r =>
        σ.withStore (σ.store.write .char (σ.address m) (σ.registers r))
  | movzx target (.byte m) =>
      if target.isWhole then some (σ.set target (σ.store.read .char (σ.address m))) else none
  | lea target m => if target.isWhole then some (σ.set target (σ.address m)) else none
  | add target source => σ.operate? image (· + ·) target source
  | sub .esp (.immediate n) =>
      if (image.floor : Int) + n ≤ (σ.registers .esp).number then
        σ.operate? image (· - ·) .esp (.immediate n)
      else none
  | sub target source =>
      if target ≠ .esp then σ.operate? image (· - ·) target source else none
  | imul target source => σ.operate? image (· * ·) target source
  | xor target source => σ.operate? image (· ^^^ ·) target (.register source)
  | cdq => some (σ.set .edx (if σ.registers .eax < 0 then -1 else 0))
  | idiv divisor => if divisor.isWhole then σ.divide? (σ.registers divisor) else none
  | cmp left right =>
      if left.isWhole ∧ right.isWhole then
        some (σ.withFlags (some (.ofComparison (σ.registers left) (σ.registers right))))
      else none
  | push value => (value.word? image σ).bind (σ.push? image)
  | pop target =>
      if target.isWhole then
        let top := σ.registers .esp
        some ((σ.set .esp (top + 4)).set target (σ.store.read .int top))
      else none
  | _ => none

/-! ### Runs -/

/-- A moment of a run: the line that comes next, and the processor. -/
structure Moment where
  line : Nat
  processor : Processor

namespace Moment

variable (image : Image) (program : List Instruction)

/-- One line of a program. -/
inductive Step : Moment → Moment → Prop
  | next {line : Nat} {σ σ' : Processor} {i : Instruction} (hline : program[line]? = some i)
      (hexec : i.exec? image σ = some σ') : Step ⟨line, σ⟩ ⟨line + 1, σ'⟩
  | jmp {line target : Nat} {σ : Processor} {l : String} (hline : program[line]? = some (.jmp l))
      (htarget : program.idxOf? (.label l) = some target) : Step ⟨line, σ⟩ ⟨target, σ⟩
  | jcc {line target : Nat} {σ : Processor} {relation : Relation} {l : String} {f : Flags}
      (hline : program[line]? = some (.jcc relation l)) (hflags : σ.flags = some f)
      (htarget : program.idxOf? (.label l) = some target) :
      Step ⟨line, σ⟩ ⟨if f.holds relation then target else line + 1, σ⟩
  | call {line target : Nat} {σ σ' : Processor} {l : String}
      (hline : program[line]? = some (.call l))
      (htarget : program.idxOf? (.label l) = some target)
      (hpush : σ.push? image (image.code (line + 1)) = some σ') : Step ⟨line, σ⟩ ⟨target, σ'⟩
  | routine {line : Nat} {σ σ1 σ' : Processor} {l : String}
      (hline : program[line]? = some (.call l)) (hnone : program.idxOf? (.label l) = none)
      (hpush : σ.push? image (image.code (line + 1)) = some σ1) (hroutine : image.routine l σ1 σ') :
      Step ⟨line, σ⟩ ⟨line + 1, σ'⟩
  | ret {line target : Nat} {σ : Processor} (hline : program[line]? = some .ret)
      (htarget : σ.store.read .int (σ.registers .esp) = image.code target)
      (hlt : target ≤ program.length) :
      Step ⟨line, σ⟩ ⟨target, σ.set .esp (σ.registers .esp + 4)⟩

/-- So many lines lead from the first moment to the second. -/
inductive Steps : Nat → Moment → Moment → Prop
  | refl (m : Moment) : Steps 0 m m
  | cons {n : Nat} {m m1 m2 : Moment} (first : Step image program m m1) (rest : Steps n m1 m2) :
      Steps (n + 1) m m2

end Moment

/-- The effect of several lines that are run one after the other. -/
def Processor.runAll? (image : Image) (σ : Processor) (lines : List Instruction) :
    Option Processor :=
  lines.foldlM (fun σ i => i.exec? image σ) σ

namespace Processor

variable {image : Image} {σ σ1 σ2 : Processor}

@[simp] theorem runAll?_nil : σ.runAll? image [] = some σ := rfl

theorem runAll?_cons (i : Instruction) (lines : List Instruction) :
    σ.runAll? image (i :: lines) = (i.exec? image σ).bind (·.runAll? image lines) := rfl

theorem runAll?_singleton (i : Instruction) : σ.runAll? image [i] = i.exec? image σ := by
  rw [runAll?_cons]
  exact bind_fun_some _

theorem runAll?_append {l l' : List Instruction} (h : σ.runAll? image l = some σ1)
    (h' : σ1.runAll? image l' = some σ2) : σ.runAll? image (l ++ l') = some σ2 := by
  rw [runAll?, List.foldlM_append]
  exact bind_eq_some_iff.mpr ⟨σ1, h, h'⟩

end Processor

/-- Lines stand in a program from a place on. -/
def Instruction.Placed (program : List Instruction) (start : Nat) (lines : List Instruction) :
    Prop :=
  ∀ (n : Nat) i, lines[n]? = some i → program[start + n]? = some i

namespace Instruction.Placed

variable {program l l' : List Instruction} {start : Nat} {i : Instruction}

theorem head (h : Placed program start (i :: l)) : program[start]? = some i := h 0 i rfl

theorem left (h : Placed program start (l ++ l')) : Placed program start l := by
  intro n i hn
  refine h n i ?_
  rw [List.getElem?_append_left (List.getElem?_eq_some_iff.mp hn).1, hn]

theorem right (h : Placed program start (l ++ l')) : Placed program (start + l.length) l' := by
  intro n i hn
  rw [Nat.add_assoc]
  refine h _ i ?_
  rw [List.getElem?_append_right (Nat.le_add_right _ _), Nat.add_sub_cancel_left, hn]

theorem tail (h : Placed program start (i :: l)) : Placed program (start + 1) l :=
  right (l := [i]) h

end Instruction.Placed

namespace Moment

variable {image : Image} {program : List Instruction}

theorem Steps.trans {n k : Nat} {m m1 m2 : Moment} (h : Steps image program n m m1)
    (h' : Steps image program k m1 m2) : Steps image program (n + k) m m2 := by
  induction h with
  | refl => rwa [Nat.zero_add]
  | cons first _ ih =>
    rw [Nat.add_right_comm]
    exact .cons first (ih h')

theorem Steps.snoc {n : Nat} {m m1 m2 : Moment} (h : Steps image program n m m1)
    (h' : Step image program m1 m2) : Steps image program (n + 1) m m2 :=
  h.trans (.cons h' (.refl _))

/-- Lines that stand in a program are run one after the other. -/
theorem steps_of_runAll? {lines : List Instruction} {line : Nat} {σ σ' : Processor}
    (hlines : Instruction.Placed program line lines) (h : σ.runAll? image lines = some σ') :
    Steps image program lines.length ⟨line, σ⟩ ⟨line + lines.length, σ'⟩ := by
  induction lines generalizing line σ with
  | nil =>
    cases h
    exact .refl _
  | cons i lines ih =>
    obtain ⟨σ1, hexec, hrest⟩ := bind_eq_some_iff.mp h
    have hfirst : Step image program ⟨line, σ⟩ ⟨line + 1, σ1⟩ := .next hlines.head hexec
    have hrun := ih hlines.tail hrest
    rw [Nat.add_assoc, Nat.add_comm 1] at hrun
    exact .cons hfirst hrun

end Moment

end BlockLang
