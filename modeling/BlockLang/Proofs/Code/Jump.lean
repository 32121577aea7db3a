import BlockLang.Code
import Mathlib.Data.List.Basic

/-!
# Jumps in code

A jump is pending as long as its target is not known; patching gives it one. The
changes of code are described here by what they do to a single quad, and the
quads that are marked as targets by the jumps that lead to them.
-/

namespace BlockLang

variable {c' : Code} {l : List Nat} {u : Nat}

namespace Opcode

/-- The operations that jump to a quad: jumps and comparisons. -/
def IsBranch (op : Opcode) : Prop := op = .jump ∨ ∃ r, op = .compare r

end Opcode

namespace Quad

/-- A quad with its jump led to a target. -/
def ledTo (q : Quad) (t : Nat) : Quad := { q with output := some (.target t) }

@[simp] theorem ledTo_op (q : Quad) (t : Nat) : (q.ledTo t).op = q.op := rfl

@[simp] theorem ledTo_output (q : Quad) (t : Nat) : (q.ledTo t).output = some (.target t) := rfl

@[simp] theorem ledTo_ledTo (q : Quad) (t u : Nat) : (q.ledTo t).ledTo u = q.ledTo u := rfl

end Quad

namespace Code

variable {c : Code} {i t : Nat} {q : Quad}

/-- The jump of a quad is pending. -/
def IsPending (c : Code) (i : Nat) : Prop :=
  ∃ q, c.quads[i]? = some q ∧ q.output = some .pending

/-- A quad is a jump or a comparison that leads to another quad. -/
def JumpsTo (c : Code) (i t : Nat) : Prop :=
  ∃ q, c.quads[i]? = some q ∧ q.op.IsBranch ∧ q.output = some (.target t)

theorem lt_next_of_getElem? (h : c.quads[i]? = some q) : i < c.next :=
  (Array.getElem?_eq_some_iff.mp h).1

theorem IsPending.lt_next (h : c.IsPending i) : i < c.next := by
  obtain ⟨q, hq, -⟩ := h
  exact lt_next_of_getElem? hq

theorem JumpsTo.lt_next (h : c.JumpsTo i t) : i < c.next := by
  obtain ⟨q, hq, -⟩ := h
  exact lt_next_of_getElem? hq

/-- Whether a quad is pending depends on that quad only. -/
theorem isPending_congr (h : c'.quads[i]? = c.quads[i]?) : c'.IsPending i ↔ c.IsPending i := by
  rw [IsPending, h]
  rfl

/-- Where a quad jumps to depends on that quad only. -/
theorem jumpsTo_congr (h : c'.quads[i]? = c.quads[i]?) : c'.JumpsTo i t ↔ c.JumpsTo i t := by
  rw [JumpsTo, h]
  rfl

/-! ### Single changes -/

@[simp] theorem next_push : (c.push q).next = c.next + 1 := Array.size_push _

@[simp] theorem temps_push : (c.push q).temps = c.temps := rfl

@[simp] theorem cell?_push (n : Nat) : (c.push q).cell? n = c.cell? n := rfl

@[simp] theorem isTarget_push : (c.push q).isTarget t = c.isTarget t := rfl

theorem getElem?_push : (c.push q).quads[i]? = if i = c.next then some q else c.quads[i]? :=
  Array.getElem?_push

theorem getElem?_push_of_lt (h : i < c.next) : (c.push q).quads[i]? = c.quads[i]? := by
  rw [getElem?_push, if_neg (Nat.ne_of_lt h)]

@[simp] theorem getElem?_push_next : (c.push q).quads[c.next]? = some q := by
  rw [getElem?_push, if_pos rfl]

/-- The last quad is the one that has been appended. -/
theorem eq_of_getElem?_push {r : Quad} (hi : c.next ≤ i) (h : (c.push q).quads[i]? = some r) :
    i = c.next ∧ r = q := by
  have hlt := lt_next_of_getElem? h
  rw [next_push] at hlt
  have heq : i = c.next := by omega
  rw [getElem?_push, if_pos heq] at h
  exact ⟨heq, (Option.some.inj h).symm⟩

@[simp] theorem next_newTemp (ty : Ty) : (c.newTemp ty).next = c.next := rfl

@[simp] theorem quads_newTemp (ty : Ty) : (c.newTemp ty).quads = c.quads := rfl

@[simp] theorem temps_newTemp (ty : Ty) : (c.newTemp ty).temps = c.temps.push ty := rfl

@[simp] theorem cell?_newTemp (ty : Ty) (n : Nat) : (c.newTemp ty).cell? n = c.cell? n := rfl

@[simp] theorem isTarget_newTemp (ty : Ty) : (c.newTemp ty).isTarget t = c.isTarget t := rfl

@[simp] theorem next_describe (n : Nat) (info : CellInfo) : (c.describe n info).next = c.next :=
  rfl

@[simp] theorem quads_describe (n : Nat) (info : CellInfo) :
    (c.describe n info).quads = c.quads := rfl

@[simp] theorem temps_describe (n : Nat) (info : CellInfo) :
    (c.describe n info).temps = c.temps := rfl

@[simp] theorem isTarget_describe (n : Nat) (info : CellInfo) :
    (c.describe n info).isTarget t = c.isTarget t := rfl

theorem cell?_describe (n m : Nat) (info : CellInfo) :
    (c.describe n info).cell? m = if m = n then some info else c.cell? m := by
  simp only [cell?, describe, List.lookup_cons]
  by_cases h : m = n
  · simp [h]
  · simp [h, beq_false_of_ne h]

@[simp] theorem next_mark : (c.mark t).next = c.next := rfl

@[simp] theorem quads_mark : (c.mark t).quads = c.quads := rfl

@[simp] theorem temps_mark : (c.mark t).temps = c.temps := rfl

@[simp] theorem cell?_mark (n : Nat) : (c.mark t).cell? n = c.cell? n := rfl

@[simp] theorem isTarget_mark : (c.mark t).isTarget u ↔ u = t ∨ c.isTarget u := by
  simp [isTarget, mark]

/-! ### Patching -/

@[simp] theorem next_patchOne (j : Nat) : (c.patchOne t j).next = c.next := by
  unfold patchOne
  split <;> simp [next, mark]

@[simp] theorem temps_patchOne (j : Nat) : (c.patchOne t j).temps = c.temps := by
  unfold patchOne
  split <;> rfl

@[simp] theorem cells_patchOne (j : Nat) : (c.patchOne t j).cells = c.cells := by
  unfold patchOne
  split <;> rfl

theorem getElem?_patchOne (j : Nat) :
    (c.patchOne t j).quads[i]? =
      if i = j then (c.quads[i]?).map (·.ledTo t) else c.quads[i]? := by
  unfold patchOne
  split
  · simp only [quads_mark, Array.getElem?_modify, eq_comm (a := i)]
    rfl
  · rename_i hj
    split
    · rename_i hij
      subst hij
      rw [Array.getElem?_eq_none (Nat.le_of_not_lt hj)]
      rfl
    · rfl

theorem isTarget_patchOne (j : Nat) :
    (c.patchOne t j).isTarget u ↔ c.isTarget u ∨ u = t ∧ j < c.next := by
  unfold patchOne
  split
  · rename_i hj
    change j < c.next at hj
    rw [isTarget_mark]
    simp only [isTarget, hj, and_true]
    exact or_comm
  · rename_i hj
    change ¬ j < c.next at hj
    simp [hj]

@[simp] theorem next_patch (l : List Nat) : (c.patch l t).next = c.next := by
  induction l generalizing c with
  | nil => rfl
  | cons j l ih => exact ih.trans (next_patchOne j)

@[simp] theorem temps_patch (l : List Nat) : (c.patch l t).temps = c.temps := by
  induction l generalizing c with
  | nil => rfl
  | cons j l ih => exact ih.trans (temps_patchOne j)

@[simp] theorem cells_patch (l : List Nat) : (c.patch l t).cells = c.cells := by
  induction l generalizing c with
  | nil => rfl
  | cons j l ih => exact ih.trans (cells_patchOne j)

@[simp] theorem cell?_patch (l : List Nat) (n : Nat) : (c.patch l t).cell? n = c.cell? n := by
  rw [cell?, cells_patch, cell?]

/-- Patching leads the listed quads to the target and leaves the others alone. -/
theorem getElem?_patch (l : List Nat) :
    (c.patch l t).quads[i]? =
      if i ∈ l then (c.quads[i]?).map (·.ledTo t) else c.quads[i]? := by
  induction l generalizing c with
  | nil => rfl
  | cons j l ih =>
    change ((c.patchOne t j).patch l t).quads[i]? = _
    rw [ih, getElem?_patchOne]
    by_cases hj : i = j <;> by_cases hl : i ∈ l <;> simp [hj, hl, Function.comp_def]

theorem getElem?_patch_of_mem (h : i ∈ l) :
    (c.patch l t).quads[i]? = (c.quads[i]?).map (·.ledTo t) := by
  rw [getElem?_patch, if_pos h]

theorem getElem?_patch_of_not_mem (h : i ∉ l) : (c.patch l t).quads[i]? = c.quads[i]? := by
  rw [getElem?_patch, if_neg h]

/-- Patching marks its target, if one of the listed quads exists. -/
theorem isTarget_patch (l : List Nat) :
    (c.patch l t).isTarget u ↔ c.isTarget u ∨ u = t ∧ ∃ j ∈ l, j < c.next := by
  induction l generalizing c with
  | nil => simp [patch]
  | cons j l ih =>
    change ((c.patchOne t j).patch l t).isTarget u ↔ _
    rw [ih, isTarget_patchOne, next_patchOne]
    simp only [List.mem_cons, exists_eq_or_imp, and_or_left, or_assoc]

theorem isPending_patch : (c.patch l t).IsPending i ↔ c.IsPending i ∧ i ∉ l := by
  by_cases h : i ∈ l
  · simp [IsPending, getElem?_patch_of_mem h, h]
  · rw [isPending_congr (getElem?_patch_of_not_mem h)]
    simp [h]

end Code

end BlockLang
