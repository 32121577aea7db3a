import BlockLang.Proofs.Emit.Step
import Mathlib.Data.List.Forall2

/-!
# Induction over the code of expressions

The code of an expression is made in few kinds of steps: a quad for an operation, one for the
address of a cell, and the quads of a call behind those of its arguments. What these steps respect
is respected by the code of every expression.
-/

namespace BlockLang

open Emit List

/-- What is collected from the parts of an expression, from left to right. -/
def Expr.collect {α : Type} (g : Expr → List α) : Expr → List α
  | index _ base first more => g base ++ (g first ++ more.flatMap g)
  | call _ _ arguments => arguments.flatMap g
  | group _ e | sign _ _ e | not _ e => g e
  | arith _ _ left right | compare _ _ left right | logic _ _ left right => g left ++ g right
  | name .. | int .. | char .. | string .. | missing _ => []

namespace Emit

/-- An argument was computed to something with a property that fits its parameter. -/
def Checked (P : Computed → Prop) (q : Parameter) (a : Argument) : Prop :=
  ∃ x, P x ∧ x.shape.ty = q.ty ∧ extentsMatch q x.shape.extents ∧
    (q.byReference → x.assignable) ∧ a = ⟨x.operand, q.byReference⟩

/-- An invariant `I`, a relation `R` and a property `V` of what is computed are respected by
the steps of computing expressions, where `g` collects something from trees. -/
structure ExpressionSteps {α : Type} (g : Expr → List α) (I : Progress → Prop)
    (R : Progress → Progress → List α → Prop) (V : Progress → Computed → Prop) : Prop where
  refl : ∀ p, R p p []
  trans : ∀ {p p1 p2 as bs}, R p p1 as → R p1 p2 bs → R p p2 (as ++ bs)
  keep : ∀ {p p1 as x}, R p p1 as → V p x → V p1 x := by intros; trivial
  /-- An expression other than a call has been computed with its parts. -/
  node : ∀ {e p p' x}, (∀ l f es, e ≠ .call l f es) → expression e p = .ok x p' →
    R p p' (e.collect g) → R p p' (g e)
  name : ∀ {p l y x}, I p → named l y p = .ok x p → V p x := by intros; trivial
  int : ∀ p value, V p (.value .int (.int value)) := by intros; trivial
  char : ∀ p byte, V p (.value .char (.char byte)) := by intros; trivial
  string : ∀ p s, V p ⟨⟨.char, [s.utf8ByteSize + 1]⟩, .string s, true⟩ := by intros; trivial
  asValue : ∀ {p x}, V p x → V p x.asValue := by intros; trivial
  arithmetic : ∀ {p p' operator a b o}, I p → V p (.value .int a) → V p (.value .int b) →
    arithmetic operator a b p = .ok o p' → I p' ∧ R p p' [] ∧ V p' (.value .int o)
  element : ∀ {p p' array extents offset x}, I p → V p array → array.shape.extents ≠ [] →
    V p (.value .int offset) → element array extents offset p = .ok x p' →
    I p' ∧ R p p' [] ∧ V p' x
  resultCall : ∀ {p p1 p' l f es fn scope as}, I p1 → p.env.find? f = some ⟨.fn fn, scope⟩ →
    fn.result ≠ .nothing → es.length = fn.parameters.length →
    argumentsOf fn fn.parameters es p = .ok as p1 → R p p1 (es.flatMap g) →
    List.Forall₂ (Checked (V p1)) fn.parameters as →
    p' = (p1.withCode (p1.code.newTemp fn.result)).appendedAll
      (resultCallQuads as p1.code.temps.size (calleeLabel fn scope)) →
    expression (.call l f es) p = .ok (.value fn.result (.temp p1.code.temps.size)) p' →
    I p' ∧ R p p' (g (.call l f es)) ∧ V p' (.value fn.result (.temp p1.code.temps.size))

namespace ExpressionSteps

variable {α : Type} {g : Expr → List α} {I : Progress → Prop}
  {R : Progress → Progress → List α → Prop} {V : Progress → Computed → Prop}
  (h : ExpressionSteps g I R V)

include h

theorem scalar {p : Progress} {x : Computed} (hx : V p x) (hs : x.isScalar .int) :
    V p (.value .int x.operand) := by
  have hshape : x.shape = ⟨.int, []⟩ := of_decide_eq_true hs
  have hvalue := h.asValue hx
  rwa [Computed.asValue, hshape] at hvalue

theorem rowStart {l : Location} {offset o : Operand} {extents : List Nat} {p p' : Progress}
    (hp : I p) (hoffset : V p (.value .int offset))
    (hrun : rowStart l offset extents p = .ok o p') :
    I p' ∧ R p p' [] ∧ V p' (.value .int o) := by
  obtain ⟨-, rfl, rfl⟩ | ⟨n, -, -, hrun⟩ := rowStart_ok hrun
  · exact ⟨hp, h.refl _, hoffset⟩
  · exact h.arithmetic hp hoffset (h.int _ _) hrun

theorem leaf {e : Expr} {p p' : Progress} {x y : Computed} (hp : I p) (hy : V p y)
    (he : ∀ l f es, e ≠ .call l f es) (hparts : e.collect g = [])
    (heq : expression e p = .ok y p) (hrun : expression e p = .ok x p') :
    I p' ∧ R p p' (g e) ∧ V p' x := by
  cases heq.symm.trans hrun
  refine ⟨hp, h.node he hrun ?_, hy⟩
  rw [hparts]
  exact h.refl p

mutual

theorem expression : ∀ (e : Expr) {p p' : Progress} {x : Computed}, I p →
    expression e p = .ok x p' → I p' ∧ R p p' (g e) ∧ V p' x
  | .name l y, p, p', x, hp, hrun => by
    have hnamed : Emit.named l y p = .ok x p' := by rwa [Emit.expression] at hrun
    obtain ⟨rfl, -⟩ := named_ok hnamed
    exact h.leaf hp (h.name hp hnamed) nofun rfl hrun hrun
  | .int l value, p, _, _, hp, hrun => h.leaf hp (h.int p value) nofun rfl rfl hrun
  | .char l byte, p, _, _, hp, hrun => h.leaf hp (h.char p byte) nofun rfl rfl hrun
  | .string l s, p, _, _, hp, hrun => h.leaf hp (h.string p s) nofun rfl rfl hrun
  | .index l base first more, p, p', x, hp, hrun => by
    obtain ⟨array, p1, i, p2, offset, p3, start, p4, harray, hne, -, hi, hs, hoffset, hstart, hx⟩ :=
      expression_index_ok hrun
    obtain ⟨hp1, r1, v1⟩ := expression base hp harray
    obtain ⟨hp2, r2, v2⟩ := expression first hp1 hi
    obtain ⟨hp3, r3, v3⟩ := rowOffset l more hp2 (h.scalar v2 hs) hoffset
    obtain ⟨hp4, r4, v4⟩ := h.rowStart hp3 v3 hstart
    -- the array is only used here, behind the code of all subscripts
    obtain ⟨hp', r5, v5⟩ := h.element hp4 (h.keep (h.trans r2 (h.trans r3 r4)) v1) hne v4 hx
    have hparts := h.trans r1 (h.trans r2 (h.trans r3 (h.trans r4 r5)))
    rw [append_nil, append_nil] at hparts
    exact ⟨hp', h.node nofun hrun hparts, v5⟩
  | .call l f arguments, p, p', x, hp, hrun => by
    obtain ⟨fn, scope, as, p1, hfn, has, rfl, hp'⟩ := expression_call_ok hrun
    obtain ⟨-, hfind, hlength, hresult⟩ := callee_ok hfn
    obtain ⟨hp1, r1, v1⟩ := argumentsOf fn fn.parameters arguments hp has
    rw [take_of_length_le (Nat.le_of_eq hlength)] at r1
    rw [take_of_length_le (Nat.le_of_eq hlength.symm)] at v1
    exact h.resultCall hp1 hfind (fun hnothing => nomatch hresult.mpr hnothing) hlength has r1 v1
      hp' hrun
  | .group l inner, p, p', x, hp, hrun => by
    obtain ⟨y, hy, rfl⟩ := expression_group_ok hrun
    obtain ⟨hp', r1, v1⟩ := expression inner hp hy
    exact ⟨hp', h.node nofun hrun r1, h.asValue v1⟩
  | .arith l operator left right, p, p', x, hp, hrun => by
    obtain ⟨a, p1, b, p2, o, ha, hb, hsa, hsb, rfl, ho⟩ := expression_arith_ok hrun
    obtain ⟨hp1, r1, v1⟩ := expression left hp ha
    obtain ⟨hp2, r2, v2⟩ := expression right hp1 hb
    obtain ⟨hp', r3, v3⟩ := h.arithmetic hp2 (h.keep r2 (h.scalar v1 hsa)) (h.scalar v2 hsb) ho
    have hparts := h.trans r1 (h.trans r2 r3)
    rw [append_nil] at hparts
    exact ⟨hp', h.node nofun hrun hparts, v3⟩
  | .sign l sign operand, p, p', x, hp, hrun => by
    obtain ⟨y, p1, hy, hs, hcases⟩ := expression_sign_ok hrun
    obtain ⟨hp1, r1, v1⟩ := expression operand hp hy
    obtain ⟨-, rfl, rfl⟩ | ⟨-, o, rfl, ho⟩ := hcases
    · exact ⟨hp1, h.node nofun hrun r1, h.asValue v1⟩
    · obtain ⟨hp', r2, v2⟩ := h.arithmetic hp1 (h.scalar v1 hs) (h.int _ _) ho
      have hparts := h.trans r1 r2
      rw [append_nil] at hparts
      exact ⟨hp', h.node nofun hrun hparts, v2⟩
  | .missing _, _, _, _, _, hrun | .compare .., _, _, _, _, hrun | .logic .., _, _, _, _, hrun
  | .not .., _, _, _, _, hrun => by cases hrun

theorem rowOffset (l : Location) : ∀ (es : List Expr) {extents : List Nat}
    {offset o : Operand} {p p' : Progress}, I p → V p (.value .int offset) →
      rowOffset l extents offset es p = .ok o p' →
      I p' ∧ R p p' (es.flatMap g) ∧ V p' (.value .int o)
  | [], extents, offset, o, p, p', hp, hoffset, hrun => by
    rw [Emit.rowOffset] at hrun
    cases hrun
    exact ⟨hp, h.refl _, hoffset⟩
  | e :: es, extents, offset, o, p, p', hp, hoffset, hrun => by
    obtain ⟨i, p1, scaled, p2, sum, p3, hi, hs, -, hscaled, hsum, hrest⟩ := rowOffset_cons_ok hrun
    obtain ⟨hp1, r1, v1⟩ := expression e hp hi
    obtain ⟨hp2, r2, v2⟩ := h.arithmetic hp1 (h.keep r1 hoffset) (h.int _ _) hscaled
    obtain ⟨hp3, r3, v3⟩ := h.arithmetic hp2 v2 (h.keep r2 (h.scalar v1 hs)) hsum
    obtain ⟨hp', r4, v4⟩ := rowOffset l es hp3 v3 hrest
    rw [flatMap_cons]
    exact ⟨hp', h.trans r1 (h.trans r2 (h.trans r3 r4)), v4⟩

/-- The code of arguments, each checked against its parameter. -/
theorem argumentsOf (fn : FunctionDecl) : ∀ (qs : List Parameter) (es : List Expr)
    {as : List Argument} {p p' : Progress}, I p → argumentsOf fn qs es p = .ok as p' →
      I p' ∧ R p p' ((es.take qs.length).flatMap g) ∧
        List.Forall₂ (Checked (V p')) (qs.take es.length) as
  | q :: qs, e :: es, as, p, p', hp, hrun => by
    obtain ⟨x, p1, rest, hx, hty, hext, href, hrest, rfl⟩ := argumentsOf_cons_ok hrun
    obtain ⟨hp1, r1, v1⟩ := expression e hp hx
    obtain ⟨hp', r2, v2⟩ := argumentsOf fn qs es hp1 hrest
    refine ⟨hp', ?_, .cons ⟨x, h.keep r2 v1, hty, hext, href, rfl⟩ v2⟩
    rw [length_cons, take_succ_cons, flatMap_cons]
    exact h.trans r1 r2
  | [], es, as, p, p', hp, hrun => by
    obtain ⟨rfl, rfl⟩ := argumentsOf_nil_ok (.inl rfl) hrun
    exact ⟨hp, h.refl _, by rw [take_nil]; exact .nil⟩
  | q :: qs, [], as, p, p', hp, hrun => by
    obtain ⟨rfl, rfl⟩ := argumentsOf_nil_ok (.inr rfl) hrun
    exact ⟨hp, h.refl _, .nil⟩

end

end ExpressionSteps

end Emit

end BlockLang
