import BlockLang.Proofs.Simulation.Statement

/-!
# Types of operands and quads

The quads of a function are typed if their operands have types that belong together, for any way to
give types to operands. An argument belongs to a parameter of the function that is called by the
quads it stands among.
-/

namespace BlockLang

open Emit List Lower

/-- The type of a variable or a parameter, or of its elements. -/
def Declaration.type? : Declaration → Option Ty
  | var v => some v.ty
  | param q => some q.ty
  | fn _ => none

/-- Variables and parameters hold values, and arrays are passed by reference. -/
structure Environment.Typed (env : Environment) : Prop where
  values : ∀ x b ty, env.find? x = some b → b.declaration.type? = some ty → ty ≠ .nothing
  scalars : env.PassesScalars

/-! ### Operands -/

namespace Operand

/-- The type of the value of an operand. -/
def HasType (env : Environment) (c : Code) : Operand → Ty → Prop
  | temp n, ty => c.temps[n]? = some ty
  | cell n, ty => n < c.temps.size ∧
      ∃ info, c.cell? n = some info ∧ ty = if info.remaining = 0 then info.element else .int
  | name x, ty => ∃ b, env.find? x = some b ∧ b.declaration.type? = some ty
  | int _, ty => ty = .int
  | char _, ty => ty = .char
  | _, _ => False

variable {env : Environment} {c c' : Code} {o : Operand} {ty : Ty}

theorem HasType.mono (h : o.HasType env c ty) (hc : c.Extends c') : o.HasType env c' ty := by
  cases o with
  | temp n => exact hc.temps n ty h
  | cell n =>
    obtain ⟨hn, info, hinfo, hty⟩ := h
    exact ⟨Nat.lt_of_lt_of_le hn hc.size_le, info, (hc.cell? n hn).trans hinfo, hty⟩
  | _ => exact h

/-- Lowering finds the type of an operand. -/
theorem HasType.typeOf {site : FunctionSite} (h : o.HasType site.env site.code ty)
    (a : Assembly) : typeOf site o a = .ok ty a := by
  cases o with
  | temp n =>
    rw [typeOf, show site.code.temps[n]? = some ty from h]
    rfl
  | cell n =>
    obtain ⟨-, info, hinfo, rfl⟩ := h
    rw [typeOf, hinfo]
    rfl
  | name x =>
    obtain ⟨⟨d, scope⟩, hb, hty⟩ := h
    rw [typeOf, hb]
    cases d with
    | var v => cases hty; rfl
    | param q => cases hty; rfl
    | fn f => cases hty
  | int value => cases h; rfl
  | char byte => cases h; rfl
  | _ => exact h.elim

end Operand

/-! ### Quads -/

section Quads

variable (T : Operand → Ty → Prop)

/-- An argument fits a parameter. One that is passed by value has its type. -/
def Argument.Fits (a : Argument) (q : Parameter) : Prop :=
  a.byReference = q.byReference ∧ (q.byReference = false → T a.value q.ty)

/-- The quads of a call of a function with arguments that fit its parameters. -/
inductive CallQuads (g : FunctionDecl) (label : FunctionLabel) : List Quad → Prop
  | effect {as : List Argument} (hresult : g.result = .nothing)
      (has : List.Forall₂ (Argument.Fits T) as g.parameters) :
      CallQuads g label (effectCallQuads as label)
  | result {as : List Argument} {n : Nat} (hresult : g.result ≠ .nothing)
      (hn : T (.temp n) g.result) (has : List.Forall₂ (Argument.Fits T) as g.parameters) :
      CallQuads g label (resultCallQuads as n label)

/-- The operands of the quad at a number have types that belong together. Arguments and
calls stand among the quads of a call of a function that is visible. -/
def Quad.TypedAt (env : Environment) (result : Ty) (c : Code) (i : Nat) (q : Quad) : Prop :=
  match q.op with
  | .arith _ => ∃ a b o, q.first = some a ∧ q.second = some b ∧ q.output = some o ∧
      T a .int ∧ T b .int ∧ T o .int
  | .compare _ => ∃ a b ty, q.first = some a ∧ q.second = some b ∧ ty ≠ .nothing ∧
      T a ty ∧ T b ty
  | .assign => ∃ a o ty, q.first = some a ∧ q.output = some o ∧ ty ≠ .nothing ∧ T a ty ∧
      if o = .returnValue then ty = result else T o ty
  | .array => ∃ a b, q.first = some a ∧ q.second = some b ∧ T b .int
  | .par | .call => ∃ x g scope first qs, env.find? x = some ⟨.fn g, scope⟩ ∧
      CallQuads T g (calleeLabel g scope) qs ∧ c.Stands first qs ∧
      first ≤ i ∧ i < first + qs.length
  | _ => True

variable {T} {T' : Operand → Ty → Prop} {env : Environment} {result : Ty} {c c' : Code} {i : Nat}
  {q : Quad}

theorem Argument.Fits.mono (hT : ∀ o ty, T o ty → T' o ty) {a : Argument} {q : Parameter}
    (h : a.Fits T q) : a.Fits T' q := ⟨h.1, fun hq => hT _ _ (h.2 hq)⟩

namespace CallQuads

variable {g : FunctionDecl} {label : FunctionLabel} {qs : List Quad}

theorem mono (hT : ∀ o ty, T o ty → T' o ty) (h : CallQuads T g label qs) :
    CallQuads T' g label qs := by
  cases h with
  | effect hresult has => exact .effect hresult (has.imp fun _ _ => .mono hT)
  | result hresult hn has => exact .result hresult (hT _ _ hn) (has.imp fun _ _ => .mono hT)

theorem not_pending (h : CallQuads T g label qs) : ∀ q ∈ qs, q.output ≠ some .pending := by
  cases h with
  | effect => exact effectCallQuads_not_pending _ _
  | result => exact resultCallQuads_not_pending _ _ _

theorem op (h : CallQuads T g label qs) : ∀ q ∈ qs, q.op = .par ∨ q.op = .call := by
  intro q hq
  cases h with
  | effect =>
    simp only [effectCallQuads, mem_append, mem_map, mem_singleton] at hq
    rcases hq with ⟨a, -, rfl⟩ | rfl
    · exact .inl rfl
    · exact .inr rfl
  | result =>
    simp only [resultCallQuads, mem_append, mem_map, mem_cons,
      not_mem_nil, or_false] at hq
    rcases hq with ⟨a, -, rfl⟩ | rfl | rfl
    · exact .inl rfl
    · exact .inl rfl
    · exact .inr rfl

end CallQuads

namespace Quad

theorem TypedAt.mono (hT : ∀ o ty, T o ty → T' o ty) (hc : c.Continues c')
    (h : q.TypedAt T env result c i) : q.TypedAt T' env result c' i := by
  obtain ⟨op, a, b, o⟩ := q
  have hcall : (∃ x g scope first qs, env.find? x = some ⟨.fn g, scope⟩ ∧
      CallQuads T g (calleeLabel g scope) qs ∧ c.Stands first qs ∧
      first ≤ i ∧ i < first + qs.length) → ∃ x g scope first qs,
      env.find? x = some ⟨.fn g, scope⟩ ∧ CallQuads T' g (calleeLabel g scope) qs ∧
      c'.Stands first qs ∧ first ≤ i ∧ i < first + qs.length := by
    rintro ⟨x, g, scope, first, qs, hx, hqs, hstands, hbounds⟩
    refine ⟨x, g, scope, first, qs, hx, hqs.mono hT, fun k r hr => ?_, hbounds⟩
    exact hc.of_not_pending (hstands k r hr) (hqs.not_pending r (mem_of_getElem? hr))
  cases op with
  | arith operator =>
    obtain ⟨a, b, o, ha, hb, ho, hta, htb, hto⟩ := h
    exact ⟨a, b, o, ha, hb, ho, hT _ _ hta, hT _ _ htb, hT _ _ hto⟩
  | compare relation =>
    obtain ⟨a, b, ty, ha, hb, hty, hta, htb⟩ := h
    exact ⟨a, b, ty, ha, hb, hty, hT _ _ hta, hT _ _ htb⟩
  | assign =>
    obtain ⟨a, o, ty, ha, ho, hty, hta, hto⟩ := h
    refine ⟨a, o, ty, ha, ho, hty, hT _ _ hta, ?_⟩
    split
    · rename_i hreturn
      rwa [if_pos hreturn] at hto
    · rename_i hreturn
      rw [if_neg hreturn] at hto
      exact hT _ _ hto
  | array =>
    obtain ⟨a, b, ha, hb, htb⟩ := h
    exact ⟨a, b, ha, hb, hT _ _ htb⟩
  | par => exact hcall h
  | call => exact hcall h
  | _ => exact h

/-- Jumps have no operands of their own when they are led to a target. -/
theorem TypedAt.ledTo (hT : ∀ ty, ¬ T .pending ty) (h : q.TypedAt T env result c i)
    (hq : q.output = some .pending) (t : Nat) : (q.ledTo t).TypedAt T env result c i := by
  obtain ⟨op, a, b, o⟩ := q
  cases op with
  | arith operator =>
    obtain ⟨a, b, o, -, -, ho, -, -, hto⟩ := h
    cases ho.symm.trans hq
    exact absurd hto (hT _)
  | assign =>
    obtain ⟨a, o, ty, -, ho, -, -, hto⟩ := h
    cases ho.symm.trans hq
    exact absurd hto (hT _)
  | compare relation => exact h
  | array => exact h
  | par => exact h
  | call => exact h
  | _ => exact h

/-- A quad that was typed in code is typed in code that continues it. -/
theorem TypedAt.continued (h : q.TypedAt (Operand.HasType env c) env result c i)
    (hc : c.Continues c') (hq : c.quads[i]? = some q) {q' : Quad} (hq' : c'.quads[i]? = some q') :
    q'.TypedAt (Operand.HasType env c') env result c' i := by
  have hmono := h.mono (fun o ty ho => Operand.HasType.mono ho hc.ext) hc
  rcases hc.quad i q hq with hsame | ⟨hpending, t, hled⟩
  · cases hq'.symm.trans hsame
    exact hmono
  · cases hq'.symm.trans hled
    exact hmono.ledTo (fun _ => id) hpending t

end Quad

end Quads

end BlockLang
