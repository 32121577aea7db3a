import BlockLang.Proofs.Emit.Callee
import BlockLang.Proofs.Quad.Typing
import BlockLang.Proofs.Tree.Binding

/-!
# Translation is typed

While a body is translated, what an expression was computed to has the type that lowering
gives to its operand, and the quads that are appended are typed. Every expression of the
body is computed on the way.
-/

namespace BlockLang

open Code.Continues Computed List Operand.HasType Progress Stmt

variable {c : Computed} {g : FunctionDecl} {scope : Int} {as : List Argument} {es : List Expr}
  {o : Operand} {p1 : Progress} {f : String} {result ty : Ty}

/-- What was computed has values, and the operand of a scalar has the type of its shape. -/
structure Computed.Typed (env : Environment) (c : Code) (x : Computed) : Prop where
  ty : x.shape.ty ≠ .nothing
  operand : x.shape.extents = [] → x.operand.HasType env c x.shape.ty

namespace Computed

variable {env : Environment} {c c' : Code} {x : Computed}

theorem Typed.mono (h : x.Typed env c) (hc : c.Extends c') : x.Typed env c' :=
  ⟨h.ty, fun hx => (h.operand hx).mono hc⟩

theorem Typed.of_isScalar (h : x.Typed env c) (hx : x.isScalar ty) :
    x.operand.HasType env c ty := by
  have hshape : x.shape = ⟨ty, []⟩ := of_decide_eq_true hx
  have hoperand := h.operand (by rw [hshape])
  rwa [hshape] at hoperand

theorem typed_value (hty : ty ≠ .nothing) (ho : o.HasType env c ty) :
    (value ty o).Typed env c := ⟨hty, fun _ => ho⟩

end Computed

/-- The code is continued by quads that are typed if the environment is, and expressions
are computed on the way. -/
structure Progress.Types (result : Ty) (p p' : Progress) (es : List Expr) : Prop
    extends p.Continues p' where
  typed : p.env.Typed → ∀ i q, p.code.next ≤ i → p'.code.quads[i]? = some q →
    q.TypedAt (Operand.HasType p.env p'.code) p.env result p'.code i
  visited : ∀ e ∈ es, ∃ p1 c p2, p1.env = p.env ∧ Emit.expression e p1 = .ok c p2 ∧
    p2.code.Continues p'.code

/-- A quad from a number on gives the result of the function. -/
def Code.Returns (c : Code) (first : Nat) : Prop :=
  ∃ i q, first ≤ i ∧ c.quads[i]? = some q ∧ q.op = .assign ∧ q.output = some .returnValue

theorem Code.Returns.mono {c c' : Code} {first first' : Nat} (h : c.Returns first)
    (hc : c.Continues c') (hfirst : first' ≤ first) : c'.Returns first' := by
  obtain ⟨i, q, hi, hq, hop, hout⟩ := h
  exact ⟨i, q, hfirst.trans hi, hc.of_not_pending hq (by rw [hout]; nofun), hop, hout⟩

namespace Progress.Types

variable {result : Ty} {p p1 p2 : Progress} {es es' : List Expr} {c : Code} {q : Quad}

theorem refl (result : Ty) (p : Progress) : p.Types result p [] where
  toContinues := .refl p
  typed _ _ _ hi hq := absurd (Code.lt_next_of_getElem? hq) (Nat.not_lt.mpr hi)
  visited := by simp

theorem trans (h : p.Types result p1 es) (h' : p1.Types result p2 es') :
    p.Types result p2 (es ++ es') where
  toContinues := h.toContinues.trans h'.toContinues
  typed henv i q hi hq := by
    by_cases hlt : i < p1.code.next
    · -- the quad was there before the second part, which may have led it to a target
      have hq1 := Array.getElem?_eq_getElem hlt
      exact (h.typed henv i _ hi hq1).continued h'.code hq1 hq
    · have hquad := h'.typed (h.env ▸ henv) i q (Nat.le_of_not_lt hlt) hq
      rwa [h.env] at hquad
  visited e he := by
    rcases mem_append.mp he with he | he
    · obtain ⟨p3, c, p4, henv, hc, hcode⟩ := h.visited e he
      exact ⟨p3, c, p4, henv, hc, hcode.trans h'.code⟩
    · obtain ⟨p3, c, p4, henv, hc, hcode⟩ := h'.visited e he
      exact ⟨p3, c, p4, henv.trans h.env, hc, hcode⟩

/-- A change of the code that appends no quad. -/
theorem continued (h : p.Types result p1 es) (hc : p1.code.Continues c)
    (hnext : c.next = p1.code.next) : p.Types result (p1.withCode c) es where
  toContinues := ⟨h.code.trans hc, h.env⟩
  typed henv i q hi hq := by
    have hlt : i < p1.code.next := hnext ▸ Code.lt_next_of_getElem? hq
    have hq1 := Array.getElem?_eq_getElem hlt
    exact (h.typed henv i _ hi hq1).continued hc hq1 hq
  visited e he := by
    obtain ⟨p3, c, p4, henv, hc', hcode⟩ := h.visited e he
    exact ⟨p3, c, p4, henv, hc', hcode.trans hc⟩

/-- Quads are appended that are not pending. -/
theorem appendAll (h : p.Types result p1 es) (qs : List Quad)
    (hqs : p.env.Typed → ∀ (k : Nat) (q : Quad), qs[k]? = some q →
      q.TypedAt (Operand.HasType p.env (p1.code.pushAll qs)) p.env result (p1.code.pushAll qs)
        (p1.code.next + k)) : p.Types result (p1.appendedAll qs) es := by
  have hcontinues := pushAll p1.code qs
  have hcode := code_appendedAll p1 qs
  refine ⟨⟨hcode ▸ h.code.trans hcontinues, (env_appendedAll p1 qs).trans h.env⟩, ?_, ?_⟩
  · intro henv i q hi hq
    rw [hcode] at hq ⊢
    by_cases hlt : i < p1.code.next
    · have hq1 := Array.getElem?_eq_getElem hlt
      exact (h.typed henv i _ hi hq1).continued hcontinues hq1 hq
    · rw [Code.getElem?_pushAll, if_neg hlt] at hq
      have hquad := hqs henv _ q hq
      rwa [Nat.add_sub_cancel' (Nat.le_of_not_lt hlt)] at hquad
  · intro e he
    obtain ⟨p3, c, p4, henv, hc, hcode'⟩ := h.visited e he
    exact ⟨p3, c, p4, henv, hc, hcode ▸ hcode'.trans hcontinues⟩

theorem append (h : p.Types result p1 es)
    (hq : p.env.Typed → q.TypedAt (Operand.HasType p.env p1.code) p.env result p1.code
      p1.code.next) : p.Types result (p1.appended q) es := by
  refine h.appendAll [q] fun henv k r hr => ?_
  have hzero : k = 0 := by
    have := (List.getElem?_eq_some_iff.mp hr).1
    simpa using this
  subst hzero
  cases hr
  have hcontinues := pushAll p1.code [q]
  exact (hq henv).mono (fun o ty ho => mono ho hcontinues.ext) hcontinues

theorem visit {p' : Progress} {e : Expr} {x : Computed} (h : p.Types result p' es)
    (he : Emit.expression e p = .ok x p') : p.Types result p' (e :: es) :=
  { h with
    visited := forall_mem_cons.mpr ⟨⟨p, x, p', rfl, he, .refl _⟩, h.visited⟩ }

end Progress.Types

/-! ### Translation -/

namespace Emit

variable {p p' : Progress}

theorem arithmetic_types (result : Ty) {operator : Arith} {a b : Operand}
    (h : arithmetic operator a b p = .ok o p') (ha : p.env.Typed → a.HasType p.env p.code .int)
    (hb : p.env.Typed → b.HasType p.env p.code .int) :
    p.Types result p' [] ∧ o.HasType p.env p'.code .int := by
  rw [arithmetic_run] at h
  cases h
  have hext := Code.Extends.newTemp p.code .int
  have ho : (Operand.temp p.code.temps.size).HasType p.env (p.code.newTemp .int) .int := by
    simp [Operand.HasType]
  refine ⟨(((Types.refl result p).continued (.newTemp p.code .int) rfl).append
    fun henv => ?_), ho⟩
  exact ⟨a, b, _, rfl, rfl, rfl, (ha henv).mono hext, (hb henv).mono hext, ho⟩

theorem named_typed {l : Location} {x : String} (h : named l x p = .ok c p') (henv : p.env.Typed) :
    c.Typed p.env p'.code := by
  obtain ⟨rfl, b, hb, ⟨v, hv, rfl⟩ | ⟨q, hq, rfl⟩⟩ := named_ok h
  · have hty : b.declaration.type? = some v.ty := by rw [hv]; rfl
    exact ⟨henv.values x b _ hb hty, fun _ => ⟨b, hb, hty⟩⟩
  · have hty : b.declaration.type? = some q.ty := by rw [hq]; rfl
    exact ⟨henv.values x b _ hb hty, fun _ => ⟨b, hb, hty⟩⟩

/-- A cell has the type of the elements when no extent is left. -/
theorem element_types (result : Ty) {array : Computed} {extents : List Nat} {offset : Operand}
    (h : element array extents offset p = .ok c p')
    (hoffset : p.env.Typed → offset.HasType p.env p.code .int)
    (harray : p.env.Typed → array.shape.ty ≠ .nothing) :
    p.Types result p' [] ∧ (p.env.Typed → c.Typed p.env p'.code) := by
  rw [element_run] at h
  cases h
  have hcell := newCell p.code .int ⟨array.shape.ty, extents.length⟩
  refine ⟨((Types.refl result p).continued hcell rfl).append fun henv => ?_, ?_⟩
  · exact ⟨_, offset, rfl, rfl, (hoffset henv).mono hcell.ext⟩
  · refine fun henv => ⟨harray henv, fun hextents => ⟨by simp, ?_⟩⟩
    have hextents : extents = [] := hextents
    exact ⟨⟨array.shape.ty, extents.length⟩, by simp [Code.cell?_describe], by simp [hextents]⟩

theorem callQuads_types {qs : List Quad} (h : p.Types result p1 es)
    (hfind : p.env.find? f = some ⟨.fn g, scope⟩)
    (hqs : p.env.Typed → CallQuads (Operand.HasType p.env p1.code) g (calleeLabel g scope) qs) :
    p.Types result (p1.appendedAll qs) es := by
  refine h.appendAll qs fun henv k q hq => ?_
  have hcontinues := pushAll p1.code qs
  have hcall := (hqs henv).mono fun o ty ho => mono ho hcontinues.ext
  have hlt := (List.getElem?_eq_some_iff.mp hq).1
  have hstands := Code.Stands.of_pushAll (.refl (p1.code.pushAll qs)) hcall.not_pending
  have hmem : ∃ x g scope first qs', p.env.find? x = some ⟨.fn g, scope⟩ ∧
      CallQuads (Operand.HasType p.env (p1.code.pushAll qs)) g (calleeLabel g scope) qs' ∧
      (p1.code.pushAll qs).Stands first qs' ∧ first ≤ p1.code.next + k ∧
      p1.code.next + k < first + qs'.length :=
    ⟨f, g, scope, _, qs, hfind, hcall, hstands, Nat.le_add_right _ _, Nat.add_lt_add_left hlt _⟩
  rcases hcall.op q (mem_of_getElem? hq) with hop | hop <;>
    simpa only [Quad.TypedAt, hop] using hmem

/-- Arguments that were checked fit the parameters, of which those passed by value are
scalars. -/
theorem fits_of_checked {env : Environment} {c : Code} {qs : List Parameter}
    (h : List.Forall₂ (Checked fun x => x.Typed env c) qs as) (hscalars : ScalarParameters qs) :
    List.Forall₂ (Argument.Fits (Operand.HasType env c)) as qs := by
  induction h with
  | nil => exact .nil
  | @cons q a qs as hchecked _ ih =>
    obtain ⟨x, hx, hty, hext, -, rfl⟩ := hchecked
    refine .cons ⟨rfl, fun hvalue => ?_⟩ (ih fun r hr => hscalars r (mem_cons_of_mem _ hr))
    obtain ⟨hopen, hextents⟩ := hscalars q mem_cons_self hvalue
    have hscalar : x.shape.extents = [] := by
      simpa [extentsMatch, hopen, hextents] using hext
    exact hty ▸ hx.operand hscalar

theorem callArguments_fit (t : p.Types result p1 es) (hfind : p.env.find? f = some ⟨.fn g, scope⟩)
    (has : List.Forall₂ (Checked fun x => p1.env.Typed → x.Typed p1.env p1.code) g.parameters as)
    (henv : p.env.Typed) :
    List.Forall₂ (Argument.Fits (Operand.HasType p.env p1.code)) as g.parameters := by
  rw [t.env] at has
  have hchecked : List.Forall₂ (Checked fun x => x.Typed p.env p1.code) g.parameters as :=
    has.imp fun _ _ ⟨x, hx, hrest⟩ => ⟨x, hx henv, hrest⟩
  exact fits_of_checked hchecked (scalarParameters_of_find hfind henv.scalars)

/-- The steps of translation append typed quads and compute the expressions of a tree. -/
theorem statementSteps_types (result : Ty) : StatementSteps result Expr.values values
    (fun _ => True) (Types result) (Types result)
    (fun p x => p.env.Typed → x.Typed p.env p.code) where
  refl := .refl result
  trans h h' := h.trans h'
  keep {p p1 es x} h hx henv := by
    rw [h.env] at henv ⊢
    exact (hx henv).mono h.code.ext
  node {e p p' x} he hrun h := by
    cases e with
    | index l base first more =>
      rw [Expr.collect, Expr.flatMap_values] at h
      exact h.visit hrun
    | call l f es => exact absurd rfl (he l f es)
    | group l inner => exact h
    | missing | compare | logic | not => cases hrun
    | _ => exact h.visit hrun
  name _ h henv := named_typed h henv
  int _ _ _ := typed_value nofun rfl
  char _ _ _ := typed_value nofun rfl
  string _ _ _ := ⟨nofun, nofun⟩
  asValue h henv := ⟨(h henv).ty, (h henv).operand⟩
  arithmetic _ ha hb h := by
    obtain ⟨t, ho⟩ := arithmetic_types result h (fun henv => (ha henv).operand rfl)
      fun henv => (hb henv).operand rfl
    exact ⟨trivial, t, fun _ => typed_value nofun (t.env ▸ ho)⟩
  element _ harray _ hoffset h := by
    obtain ⟨t, hx⟩ := element_types result h (fun henv => (hoffset henv).operand rfl)
      fun henv => (harray henv).ty
    exact ⟨trivial, t, t.env ▸ hx⟩
  resultCall {p q p' l f es g scope as} _ hfind hresult _ _ t has hp' hrun := by
    subst hp'
    rw [Expr.flatMap_values] at t
    have htemp : (Operand.temp q.code.temps.size).HasType p.env (q.code.newTemp g.result)
        g.result := by simp [Operand.HasType]
    have htypes := callQuads_types (t.continued (.newTemp q.code g.result) rfl) hfind fun henv =>
      .result hresult htemp ((callArguments_fit t hfind has henv).imp fun _ _ => .mono
        fun o ty ho => ho.mono (.newTemp q.code g.result))
    refine ⟨trivial, htypes.visit hrun, fun _ => typed_value hresult ?_⟩
    rw [htypes.env, code_appendedAll]
    exact htemp
  weaken h := h
  join h h' := h.trans h'
  collected s hs := by
    cases s with
    | block body => exact (flatMap_values body).symm
    | call e => exact absurd rfl (hs e)
    | _ => rfl
  patched {p _ _} _ hc _ :=
    ⟨trivial, (Types.refl result p).continued hc (Code.next_patch _)⟩
  marked {p} _ := ⟨trivial, (Types.refl result p).continued (.mark _ _) rfl⟩
  comparison {p _ _ _ a b _} _ ha hb h := by
    obtain ⟨hextents, hshape, hty, -, rfl⟩ := comparison_ok h
    refine ⟨trivial, ((Types.refl result p).append fun henv => ?_).append
      fun _ => trivial⟩
    refine ⟨_, _, a.shape.ty, rfl, rfl, hty, (ha henv).operand hextents, ?_⟩
    rw [hshape] at hextents ⊢
    exact (hb henv).operand hextents
  skipped {p} _ := ⟨trivial, (Types.refl result p).append fun _ => trivial⟩
  looped {p _} _ := ⟨trivial, (Types.refl result p).append fun _ => trivial⟩
  assign {p _ _ a _} _ ha hb _ h := by
    obtain ⟨-, hextents, hshape, rfl⟩ := assign_ok h
    refine ⟨trivial, (Types.refl result p).append fun henv => ?_⟩
    have htarget := (ha henv).operand hextents
    have hne : a.operand ≠ .returnValue := by
      intro hreturn
      rw [hreturn] at htarget
      exact htarget
    refine ⟨_, _, a.shape.ty, rfl, rfl, (ha henv).ty, ?_, by rwa [if_neg hne]⟩
    rw [hshape] at hextents ⊢
    exact (hb henv).operand hextents
  returned {p _} _ hx hscalar hresult := by
    refine ⟨trivial, ((Types.refl result p).append fun henv => ?_).append
      fun _ => trivial⟩
    exact ⟨_, _, result, rfl, rfl, hresult, (hx henv).of_isScalar hscalar, by rw [if_pos rfl]⟩
  left {p} _ := ⟨trivial, (Types.refl result p).append fun _ => trivial⟩
  effectCall {p q l f es g scope as} _ hfind hresult _ _ t has := by
    rw [Expr.flatMap_values] at t
    exact ⟨trivial, callQuads_types t hfind fun henv =>
      .effect hresult (callArguments_fit t hfind has henv)⟩

/-- An expression appends typed quads, and its operand has the type of its shape. -/
theorem expression_types (result : Ty) (e : Expr) (h : expression e p = .ok c p') :
    p.Types result p' e.values ∧ (p.env.Typed → c.Typed p.env p'.code) := by
  obtain ⟨-, t, hc⟩ := (statementSteps_types result).expression e trivial h
  exact ⟨t, t.env ▸ hc⟩

theorem statements_types (function : String) (result : Ty) (ss : List Stmt) {p0 : Progress}
    {pending l : List Nat} (h0 : p0.Emits 0 p l)
    (h : statements function result l ss p = .ok pending p') :
    p.Types result p' (valuesAll ss) := by
  rw [← flatMap_values]
  exact ((statementSteps_types result).statements function ss trivial h0 h).2

/-! ### Returns with a value -/

section Statement

variable (function : String) (result : Ty)

mutual

/-- A statement that holds a return with a value gives the function a result. -/
theorem statement_returns : ∀ (s : Stmt) {p p' : Progress} {pending : List Nat},
    s.returnsValue = true → statement function result s p = .ok pending p' →
      p'.code.Returns p.code.next
  | .returnValue l value, p, p', pending, _, h => by
    obtain ⟨hret, rfl⟩ := statement_returnValue_ok h
    obtain ⟨-, c, q, hc, -, rfl⟩ := returnValue_ok hret
    refine Code.Returns.mono ⟨q.code.next, _, ?_, Code.getElem?_push_next, rfl, rfl⟩ (.push _ _)
      (Nat.le_refl _)
    exact (expression_emits value (Nat.zero_le _) hc).1.grows.next_le
  | .block body, p, p', pending, hs, h => by
    rw [statement] at h
    exact statements_returns body (.refl 0 p) hs h
  | .ifThen c body, p, p', pending, hs, h => by
    obtain ⟨exits, p1, p2, hc, hbody, rfl⟩ := statement_ifThen_ok h
    have e := (condition_emits c (Nat.zero_le _) hc).patchHere (.refl _)
    exact (statement_returns body hs hbody).mono
      ((guarded_emits hc hbody).grows.continues_patch (subset_append_left _ _) _) e.grows.next_le
  | .ifElse c body otherwise, p, p', pending, hs, h => by
    obtain ⟨exits, p1, l, p2, l', p3, hc, hbody, rfl, helse, rfl⟩ := statement_ifElse_ok h
    have e := (condition_emits c (Nat.zero_le _) hc).patchHere (.refl _)
    have e2 := (guarded_emits hc hbody).appendPending (q := jumpQuad) (.inl rfl) rfl
    rw [append_assoc] at e2
    have hpatch := e2.grows.continues_patch (subset_append_left _ _)
      (p2.appended jumpQuad).code.next
    rcases Bool.or_eq_true_iff.mp hs with hs | hs
    · have hrest := (Code.Continues.push p2.code jumpQuad).trans
        (hpatch.trans (statement_continues helse).code)
      exact (statement_returns body hs hbody).mono hrest e.grows.next_le
    · exact (statement_returns otherwise hs helse).mono (.refl _)
        (e2.patchHere (.refl _)).grows.next_le
  | .whileDo c body, p, p', pending, hs, h => by
    obtain ⟨exits, p1, l, p2, hc, hbody, rfl, rfl⟩ := statement_whileDo_ok h
    have e := (condition_emits c (Nat.zero_le _) hc).patchHere (.refl _)
    have hpatch := (guarded_emits hc hbody).grows.continues_patch (subset_append_right _ _)
      p.code.next
    exact (statement_returns body hs hbody).mono (hpatch.trans (.push _ _)) e.grows.next_le
  | .empty, _, _, _, hs, _ | .assign .., _, _, _, hs, _ | .call _, _, _, _, hs, _
  | .returnNothing _, _, _, _, hs, _ | .missing _, _, _, _, hs, _ => by
    simp [returnsValue] at hs

/-- Statements of which one holds a return with a value. -/
theorem statements_returns : ∀ (ss : List Stmt) {p0 p p' : Progress} {pending l : List Nat},
    p0.Emits 0 p l → someReturnsValue ss = true →
      statements function result l ss p = .ok pending p' → p'.code.Returns p.code.next
  | [], _, _, _, _, _, _, hs, _ => by cases hs
  | s :: ss, p0, p, p', pending, l, h0, hs, h => by
    obtain ⟨l', p1, hstmt, hss⟩ := statements_cons_ok h
    have e := statement_emits function result s (Nat.zero_le _) hstmt
    rcases Bool.or_eq_true_iff.mp hs with hs | hs
    · refine (statement_returns s hs hstmt).mono (statements_types function result ss e hss).code ?_
      rw [withCode_code, Code.next_patch]
    · refine (statements_returns ss e hs hss).mono (.refl _) ?_
      have hnext := e.grows.next_le
      rwa [withCode_code, Code.next_patch] at hnext

end

end Statement

end Emit

end BlockLang
