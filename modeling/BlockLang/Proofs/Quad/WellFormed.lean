import BlockLang.Environment
import BlockLang.Proofs.Code.Jump

/-!
# Well-formed quads

A quad of a function is well formed if what it reads has a value, what it writes has a place, and
what it passes by reference has an address. Temporaries have to belong to the function, and names
to what its body can see.
-/

namespace BlockLang

open Operand

/-- A variable or a parameter that is no array is declared. -/
def Declaration.IsScalar : Declaration → Prop
  | var v => v.extents = []
  | param q => q.isOpen = false ∧ q.extents = []
  | fn _ => False

namespace Environment

/-- A name stands for a variable or a parameter. -/
def Holds (env : Environment) (x : String) : Prop :=
  ∃ b, env.find? x = some b ∧ ∀ f, b.declaration ≠ .fn f

/-- A name stands for a variable or a parameter that is no array. -/
def HoldsScalar (env : Environment) (x : String) : Prop :=
  ∃ b, env.find? x = some b ∧ b.declaration.IsScalar

theorem HoldsScalar.holds {env : Environment} {x : String} (h : env.HoldsScalar x) :
    env.Holds x := by
  obtain ⟨b, hb, hscalar⟩ := h
  refine ⟨b, hb, fun f hf => ?_⟩
  rw [hf] at hscalar
  exact hscalar

/-- Arrays are passed by reference only, in every function that can be called. -/
def PassesScalars (env : Environment) : Prop :=
  ∀ b ∈ env.bindings, ∀ f, b.declaration = .fn f →
    ∀ q ∈ f.parameters, q.byReference = false → q.isOpen = false ∧ q.extents = []

end Environment

/-- The second code has the temporaries of the first and knows the same of them. -/
structure Code.Extends (c c' : Code) : Prop where
  temps : ∀ (n : Nat) (ty : Ty), c.temps[n]? = some ty → c'.temps[n]? = some ty
  cell? : ∀ n, n < c.temps.size → c'.cell? n = c.cell? n

namespace Code.Extends

variable {c c' c'' : Code}

theorem refl (c : Code) : c.Extends c := ⟨fun _ _ h => h, fun _ _ => rfl⟩

theorem size_le (h : c.Extends c') : c.temps.size ≤ c'.temps.size := by
  by_contra hlt
  have hsome := Array.getElem?_eq_getElem (Nat.lt_of_not_le hlt)
  have hnone := h.temps _ _ hsome
  rw [Array.getElem?_eq_none (Nat.le_refl _)] at hnone
  cases hnone

theorem trans (h : c.Extends c') (h' : c'.Extends c'') : c.Extends c'' where
  temps n ty hn := h'.temps n ty (h.temps n ty hn)
  cell? n hn := (h'.cell? n (Nat.lt_of_lt_of_le hn h.size_le)).trans (h.cell? n hn)

theorem newTemp (c : Code) (ty : Ty) : c.Extends (c.newTemp ty) where
  temps n ty' hn := by
    have hlt := (Array.getElem?_eq_some_iff.mp hn).1
    rw [temps_newTemp, Array.getElem?_push, if_neg (Nat.ne_of_lt hlt), hn]
  cell? _ _ := rfl

/-- A new temporary may be described: nothing was known of it before. -/
theorem newCell (c : Code) (ty : Ty) (info : CellInfo) :
    c.Extends ((c.newTemp ty).describe c.temps.size info) where
  temps n ty' hn := (newTemp c ty).temps n ty' hn
  cell? n hn := by rw [cell?_describe, if_neg (Nat.ne_of_lt hn), cell?_newTemp]

end Code.Extends

/-! ### Operands -/

namespace Operand

section Parts

variable (env : Environment) (c : Code) (lo : Nat)

/-- An operand has a value. Its temporary is one of those from `lo` on. -/
def Readable : Operand → Prop
  | temp n => lo ≤ n ∧ ∃ ty, c.temps[n]? = some ty ∧ ty ≠ .nothing
  | cell n => lo ≤ n ∧ c.temps[n]? = some .int ∧ (c.cell? n).isSome
  | name x => env.HoldsScalar x
  | int _ | char _ => True
  | _ => False

/-- An operand has an address. -/
def Located : Operand → Prop
  | cell n => lo ≤ n ∧ c.temps[n]? = some .int ∧ (c.cell? n).isSome
  | name x => env.Holds x
  | string _ => True
  | _ => False

/-- An operand has a value and an address. -/
def Writable (o : Operand) : Prop := o.Readable env c lo ∧ o.Located env c lo

end Parts

variable {env : Environment} {c c' : Code} {lo : Nat} {o : Operand}

theorem Readable.mono (h : o.Readable env c lo) (hc : c.Extends c') :
    o.Readable env c' lo := by
  cases o with
  | temp n =>
    obtain ⟨hlo, ty, hty, hne⟩ := h
    exact ⟨hlo, ty, hc.temps n ty hty, hne⟩
  | cell n =>
    obtain ⟨hlo, hty, hsome⟩ := h
    exact ⟨hlo, hc.temps n _ hty, by rwa [hc.cell? n (Array.getElem?_eq_some_iff.mp hty).1]⟩
  | _ => exact h

theorem Located.mono (h : o.Located env c lo) (hc : c.Extends c') : o.Located env c' lo := by
  cases o with
  | cell n =>
    obtain ⟨hlo, hty, hsome⟩ := h
    exact ⟨hlo, hc.temps n _ hty, by rwa [hc.cell? n (Array.getElem?_eq_some_iff.mp hty).1]⟩
  | _ => exact h

theorem Writable.mono (h : o.Writable env c lo) (hc : c.Extends c') : o.Writable env c' lo :=
  ⟨h.1.mono hc, h.2.mono hc⟩

end Operand

/-! ### Quads -/

namespace Quad

section

variable (env : Environment) (c : Code) (lo : Nat)

/-- A jump leads to a target or is pending. -/
def HasTarget (q : Quad) : Prop :=
  q.output = some .pending ∨ ∃ t, q.output = some (.target t)

/-- All operands of a quad can play their parts. -/
def WellFormed (q : Quad) : Prop :=
  match q.op with
  | .unit | .endUnit | .ret => q.output = none
  | .assign => ∃ a o, q.first = some a ∧ a.Readable env c lo ∧ q.output = some o ∧
      (o = .returnValue ∨ o.Writable env c lo)
  | .array => ∃ a i n, q.first = some a ∧ a.Located env c lo ∧
      q.second = some i ∧ i.Readable env c lo ∧
      q.output = some (.cell n) ∧ (cell n).Readable env c lo
  | .arith _ => ∃ a b n, q.first = some a ∧ a.Readable env c lo ∧
      q.second = some b ∧ b.Readable env c lo ∧
      q.output = some (.temp n) ∧ (temp n).Readable env c lo
  | .jump => q.HasTarget
  | .compare _ => q.HasTarget ∧ ∃ a b, q.first = some a ∧ a.Readable env c lo ∧
      q.second = some b ∧ b.Readable env c lo
  | .par => q.output = none ∧ ∃ a, q.first = some a ∧
      ((q.second = some .byValue ∧ (env.PassesScalars → a.Readable env c lo)) ∨
        (q.second = some .byReference ∧ a.Located env c lo) ∨
        (q.second = some .returnDestination ∧
          ∃ n, a = .temp n ∧ (temp n).Readable env c lo))
  | .call => ∃ l, q.output = some (.function l) ∧
      ∃ b ∈ env.bindings, ∀ d, l.depth = some d → b.scope = d

end

variable {env : Environment} {c c' : Code} {lo : Nat} {q : Quad}

theorem WellFormed.mono (h : q.WellFormed env c lo) (hc : c.Extends c') :
    q.WellFormed env c' lo := by
  obtain ⟨op, a, b, o⟩ := q
  cases op with
  | assign =>
    obtain ⟨a, o, ha, hra, ho, hwo⟩ := h
    exact ⟨a, o, ha, hra.mono hc, ho, hwo.imp_right (·.mono hc)⟩
  | array =>
    obtain ⟨a, i, n, ha, hla, hi, hri, hn, hrn⟩ := h
    exact ⟨a, i, n, ha, hla.mono hc, hi, hri.mono hc, hn, hrn.mono hc⟩
  | arith =>
    obtain ⟨a, b, n, ha, hra, hb, hrb, hn, hrn⟩ := h
    exact ⟨a, b, n, ha, hra.mono hc, hb, hrb.mono hc, hn, hrn.mono hc⟩
  | compare =>
    obtain ⟨ht, a, b, ha, hra, hb, hrb⟩ := h
    exact ⟨ht, a, b, ha, hra.mono hc, hb, hrb.mono hc⟩
  | par =>
    obtain ⟨ho, a, ha, hv | hr | hd⟩ := h
    · exact ⟨ho, a, ha, .inl ⟨hv.1, fun henv => (hv.2 henv).mono hc⟩⟩
    · exact ⟨ho, a, ha, .inr (.inl ⟨hr.1, hr.2.mono hc⟩)⟩
    · obtain ⟨hs, n, hn, hrn⟩ := hd
      exact ⟨ho, a, ha, .inr (.inr ⟨hs, n, hn, hrn.mono hc⟩)⟩
  | _ => exact h

/-- Only jumps and comparisons have a target or wait for one. -/
theorem WellFormed.isBranch (h : q.WellFormed env c lo) (ht : q.HasTarget) : q.op.IsBranch := by
  obtain ⟨op, a, b, o⟩ := q
  cases op with
  | jump => exact .inl rfl
  | compare r => exact .inr ⟨r, rfl⟩
  | assign =>
    obtain ⟨_, o, -, -, rfl, hwo⟩ := h
    rcases ht with ht | ⟨t, ht⟩ <;> cases ht
    all_goals
      rcases hwo with h' | h'
      · cases h'
      · exact h'.1.elim
  | array =>
    obtain ⟨_, _, n, -, -, -, -, rfl, -⟩ := h
    rcases ht with ht | ⟨t, ht⟩ <;> cases ht
  | arith =>
    obtain ⟨_, _, n, -, -, -, -, rfl, -⟩ := h
    rcases ht with ht | ⟨t, ht⟩ <;> cases ht
  | par =>
    obtain ⟨rfl, -⟩ := h
    rcases ht with ht | ⟨t, ht⟩ <;> cases ht
  | call =>
    obtain ⟨l, rfl, -⟩ := h
    rcases ht with ht | ⟨t, ht⟩ <;> cases ht
  | _ =>
    obtain rfl := h
    rcases ht with ht | ⟨t, ht⟩ <;> cases ht

/-- A well-formed quad stays so when its pending jump is led to a target. -/
theorem WellFormed.ledTo (h : q.WellFormed env c lo) (hq : q.output = some .pending) (t : Nat) :
    (q.ledTo t).WellFormed env c lo := by
  rcases h.isBranch (.inl hq) with hop | ⟨r, hop⟩
  · simp only [WellFormed, ledTo_op, hop]
    exact .inr ⟨t, rfl⟩
  · simp only [WellFormed, ledTo_op, hop] at h ⊢
    exact ⟨.inr ⟨t, rfl⟩, h.2⟩

end Quad

end BlockLang
