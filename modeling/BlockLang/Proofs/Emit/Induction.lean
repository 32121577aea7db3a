import BlockLang.Proofs.Code.Continuation
import BlockLang.Proofs.Emit.Growth

/-!
# Induction over translation

Translating a body takes few kinds of steps beside those of expressions: a quad is appended, a
function is left, pending jumps are led to their targets. What every such step respects is
respected by the translation of conditions and statements.
-/

namespace BlockLang

open Emit List

/-- What is collected from the parts of a statement, from left to right. -/
def Stmt.collect {α : Type} (g : Expr → List α) (k : Stmt → List α) : Stmt → List α
  | assign _ target value => g target ++ g value
  | block body => body.flatMap k
  | ifThen c body | whileDo c body => g c ++ k body
  | ifElse c body otherwise => g c ++ (k body ++ k otherwise)
  | returnValue _ value => g value
  | call _ | empty | returnNothing _ | missing _ => []

namespace Emit

/-- An invariant `I` and relations are respected by the steps of translation in a function
with a result, where `g` and `k` collect something from trees. The relation `R`, for what is
computed in a row, may say more than the relation `S`. -/
structure StatementSteps {α : Type} (result : Ty) (g : Expr → List α) (k : Stmt → List α)
    (I : Progress → Prop) (R S : Progress → Progress → List α → Prop)
    (V : Progress → Computed → Prop) : Prop extends ExpressionSteps g I R V where
  weaken : ∀ {p p' as}, R p p' as → S p p' as
  join : ∀ {p p1 p2 as bs}, S p p1 as → S p1 p2 bs → S p p2 (as ++ bs)
  grouped : ∀ l e, g (.group l e) = g e := by intros; rfl
  negated : ∀ l e, g (.not l e) = g e := by intros; rfl
  compared : ∀ l relation a b, g (.compare l relation a b) = g a ++ g b := by intros; rfl
  connected : ∀ l operator a b, g (.logic l operator a b) = g a ++ g b := by intros; rfl
  collected : ∀ s, (∀ e, s ≠ .call e) → k s = s.collect g k
  /-- Pending jumps are led to the next quad or to one that is a target already. -/
  patched : ∀ {p l t}, I p → p.code.Continues (p.code.patch l t) →
    p.code.isTarget t ∨ t = p.code.next →
    I (p.withCode (p.code.patch l t)) ∧ S p (p.withCode (p.code.patch l t)) []
  marked : ∀ {p}, I p → I (p.withCode (p.code.mark p.code.next)) ∧
    S p (p.withCode (p.code.mark p.code.next)) []
  comparison : ∀ {p p' l relation a b exits}, I p → V p a → V p b →
    comparison l relation a b p = .ok exits p' → I p' ∧ S p p' []
  skipped : ∀ {p}, I p → I (p.appended jumpQuad) ∧ S p (p.appended jumpQuad) []
  looped : ∀ {p t}, I p → I (p.appended ⟨.jump, none, none, some (.target t)⟩) ∧
    S p (p.appended ⟨.jump, none, none, some (.target t)⟩) []
  assign : ∀ {p p' l target value}, I p → V p target → V p value →
    target.Sound p.env p.code 0 → assign l target value p = .ok () p' → I p' ∧ S p p' []
  returned : ∀ {p x}, I p → V p x → x.isScalar result → result ≠ .nothing →
    I ((p.appended (assignQuad x.operand .returnValue)).appended returnQuad) ∧
    S p ((p.appended (assignQuad x.operand .returnValue)).appended returnQuad) []
  left : ∀ {p}, I p → I (p.appended returnQuad) ∧ S p (p.appended returnQuad) []
  effectCall : ∀ {p p1 l f es fn scope as}, I p1 → p.env.find? f = some ⟨.fn fn, scope⟩ →
    fn.result = .nothing → es.length = fn.parameters.length →
    argumentsOf fn fn.parameters es p = .ok as p1 → R p p1 (es.flatMap g) →
    List.Forall₂ (Checked (V p1)) fn.parameters as →
    I (p1.appendedAll (effectCallQuads as (calleeLabel fn scope))) ∧
    S p (p1.appendedAll (effectCallQuads as (calleeLabel fn scope))) (k (.call (.call l f es)))

namespace StatementSteps

variable {α : Type} {result : Ty} {g : Expr → List α} {k : Stmt → List α} {I : Progress → Prop}
  {R S : Progress → Progress → List α → Prop} {V : Progress → Computed → Prop}
  (h : StatementSteps result g k I R S V)

include h

/-- Jumps that a translation has left pending are led to a target. -/
theorem patch {p p1 : Progress} {l l' : List Nat} {t : Nat} {as : List α}
    (hp : I p1 ∧ S p p1 as) {p0 : Progress} {lo : Nat} (e : p0.Emits lo p1 l) (hl : l' ⊆ l)
    (ht : p1.code.isTarget t ∨ t = p1.code.next) :
    I (p1.withCode (p1.code.patch l' t)) ∧ S p (p1.withCode (p1.code.patch l' t)) as := by
  obtain ⟨hpatched, r⟩ := h.patched hp.1 (e.grows.continues_patch hl t) ht
  have r' := h.join hp.2 r
  rw [append_nil] at r'
  exact ⟨hpatched, r'⟩

/-- A step follows for which nothing is collected. -/
theorem step {p p1 p2 : Progress} {as : List α} (r : S p p1 as) (hp : I p2 ∧ S p1 p2 []) :
    I p2 ∧ S p p2 as := by
  have r' := h.join r hp.2
  rw [append_nil] at r'
  exact ⟨hp.1, r'⟩

theorem condition {e : Expr} {p p' : Progress} {exits : Exits} (hp : I p)
    (hrun : condition e p = .ok exits p') : I p' ∧ S p p' (g e) := by
  induction hrun using condition_induction with
  | group ih =>
    rw [h.grouped]
    exact ih hp
  | not ih =>
    rw [h.negated]
    exact ih hp
  | @logic _ k left _ _ a _ _ _ ha _ _ ihleft ihright =>
    obtain ⟨hp1, r1⟩ := h.patch (ihleft hp) (condition_emits left (Nat.zero_le _) ha)
      (a.when_subset !k.settles) (.inr rfl)
    obtain ⟨hp', r2⟩ := ihright hp1
    rw [h.connected]
    exact ⟨hp', h.join r1 r2⟩
  | @compare _ _ left right _ _ _ hrun =>
    obtain ⟨a, p1, b, p2, ha, hb, hcompare⟩ := condition_compare_ok hrun
    obtain ⟨hp1, r1, v1⟩ := h.expression left hp ha
    obtain ⟨hp2, r2, v2⟩ := h.expression right hp1 hb
    rw [h.compared]
    exact h.step (h.weaken (h.trans r1 r2)) (h.comparison hp2 (h.keep r2 v1) v2 hcompare)

/-- The code of a condition whose first exit is led to what follows. -/
theorem decided {c : Expr} {p p1 : Progress} {exits : Exits} (hp : I p)
    (hrun : Emit.condition c p = .ok exits p1) :
    I (p1.withCode (p1.code.patch exits.whenTrue p1.code.next)) ∧
      S p (p1.withCode (p1.code.patch exits.whenTrue p1.code.next)) (g c) :=
  h.patch (h.condition hp hrun) (condition_emits c (Nat.zero_le _) hrun)
    (subset_append_left _ _) (.inr rfl)

variable (function : String)

mutual

theorem statement : ∀ (s : Stmt) {p p' : Progress} {pending : List Nat}, I p →
    Emit.statement function result s p = .ok pending p' → I p' ∧ S p p' (k s)
  | .empty, p, p', pending, hp, hrun => by
    rw [Emit.statement] at hrun
    cases hrun
    rw [h.collected .empty nofun]
    exact ⟨hp, h.weaken (h.refl p)⟩
  | .assign l target value, p, p', pending, hp, hrun => by
    obtain ⟨a, p1, b, p2, ha, hb, hassign, rfl⟩ := statement_assign_ok hrun
    obtain ⟨hp1, r1, v1⟩ := h.expression target hp ha
    obtain ⟨hp2, r2, v2⟩ := h.expression value hp1 hb
    obtain ⟨-, -, s1⟩ := (expressionSteps_emits 0).expression target (Nat.zero_le _) ha
    have hsound := s1.emits (expression_emits value (Nat.zero_le _) hb).1
    rw [h.collected (.assign l target value) nofun]
    exact h.step (h.weaken (h.trans r1 r2)) (h.assign hp2 (h.keep r2 v1) v2 hsound hassign)
  | .call e, p, p', pending, hp, hrun => by
    obtain ⟨hcall, rfl⟩ := statement_call_ok hrun
    obtain ⟨l, f, es, fn, scope, as, p1, rfl, hfn, has, rfl⟩ := callForEffect_ok hcall
    obtain ⟨-, hfind, hlength, hresult⟩ := callee_ok hfn
    obtain ⟨hp1, r1, v1⟩ := h.argumentsOf fn fn.parameters es hp has
    rw [take_of_length_le (Nat.le_of_eq hlength)] at r1
    rw [take_of_length_le (Nat.le_of_eq hlength.symm)] at v1
    exact h.effectCall hp1 hfind (hresult.mp rfl) hlength has r1 v1
  | .block body, p, p', pending, hp, hrun => by
    rw [Emit.statement] at hrun
    rw [h.collected (.block body) nofun]
    exact statements body hp (.refl 0 p) hrun
  | .ifThen c body, p, p', pending, hp, hrun => by
    obtain ⟨exits, p1, p2, hc, hbody, rfl⟩ := statement_ifThen_ok hrun
    obtain ⟨hp1, r1⟩ := h.decided hp hc
    obtain ⟨hp2, r2⟩ := statement body hp1 hbody
    have e := guarded_emits hc hbody
    rw [h.collected (.ifThen c body) nofun]
    exact h.patch ⟨hp2, h.join r1 r2⟩ e (subset_append_left _ _) (.inr rfl)
  | .ifElse c body otherwise, p, p', pending, hp, hrun => by
    obtain ⟨exits, p1, l, p2, l', p3, hc, hbody, rfl, helse, rfl⟩ := statement_ifElse_ok hrun
    obtain ⟨hp1, r1⟩ := h.decided hp hc
    obtain ⟨hp2, r2⟩ := statement body hp1 hbody
    have e := (guarded_emits hc hbody).appendPending (q := jumpQuad) (.inl rfl) rfl
    obtain ⟨hp3, r3⟩ := h.patch (h.step (h.join r1 r2) (h.skipped hp2)) e
      (subset_append_of_subset_left _ (subset_append_left _ _)) (.inr rfl)
    obtain ⟨hp', r4⟩ := statement otherwise hp3 helse
    rw [h.collected (.ifElse c body otherwise) nofun, Stmt.collect, ← append_assoc]
    exact ⟨hp', h.join r3 r4⟩
  | .whileDo c body, p, p', pending, hp, hrun => by
    obtain ⟨exits, p1, l, p2, hc, hbody, rfl, rfl⟩ := statement_whileDo_ok hrun
    obtain ⟨hmarked, r0⟩ := h.marked hp
    obtain ⟨hp1, r1⟩ := h.decided hmarked hc
    obtain ⟨hp2, r2⟩ := statement body hp1 hbody
    have e := guarded_emits hc hbody
    -- the head of the loop has been marked before, so no further quad becomes a target
    have hhead : p2.code.isTarget p.code.next :=
      (e.grows.isTarget _).mpr (.inl (Code.isTarget_mark.mpr (.inl rfl)))
    obtain ⟨hp3, r3⟩ := h.patch ⟨hp2, h.join r0 (h.join r1 r2)⟩ e (subset_append_right _ _)
      (.inl hhead)
    rw [h.collected (.whileDo c body) nofun]
    exact h.step r3 (h.looped hp3)
  | .returnValue l value, p, p', pending, hp, hrun => by
    obtain ⟨hret, rfl⟩ := statement_returnValue_ok hrun
    obtain ⟨hresult, x, p1, hx, hs, rfl⟩ := returnValue_ok hret
    obtain ⟨hp1, r1, v1⟩ := h.expression value hp hx
    rw [h.collected (.returnValue l value) nofun]
    exact h.step (h.weaken r1) (h.returned hp1 v1 hs hresult)
  | .returnNothing l, p, p', pending, hp, hrun => by
    obtain ⟨hret, rfl⟩ := statement_returnNothing_ok hrun
    obtain ⟨-, rfl⟩ := returnNothing_ok hret
    rw [h.collected (.returnNothing l) nofun]
    exact h.left hp
  | .missing _, _, _, _, _, hrun => by cases hrun

/-- The code of statements, of which the first is where jumps that are pending lead to. -/
theorem statements : ∀ (ss : List Stmt) {p0 p p' : Progress} {pending l : List Nat}, I p →
    p0.Emits 0 p l → statements function result l ss p = .ok pending p' →
      I p' ∧ S p p' (ss.flatMap k)
  | [], p0, p, p', pending, l, hp, _, hrun => by
    rw [Emit.statements] at hrun
    cases hrun
    exact ⟨hp, h.weaken (h.refl p)⟩
  | s :: ss, p0, p, p', pending, l, hp, h0, hrun => by
    obtain ⟨l', p1, hs, hss⟩ := statements_cons_ok hrun
    obtain ⟨hp1, r1⟩ := h.patch ⟨hp, h.weaken (h.refl p)⟩ h0 (List.Subset.refl _) (.inr rfl)
    obtain ⟨hp2, r2⟩ := statement s hp1 hs
    obtain ⟨hp', r3⟩ := statements ss hp2 (statement_emits function result s (Nat.zero_le _) hs) hss
    exact ⟨hp', h.join (h.join r1 r2) r3⟩

end

end StatementSteps

/-! ### Relations -/

/-- A quad is neither a call nor sets a result. -/
def IsPlain (q : Quad) : Bool := q.op ≠ .call ∧ q.output ≠ some .returnValue

/-- A relation between the progress before and after is respected by the steps of
translation. -/
structure Stepwise (R : Progress → Progress → Prop) : Prop where
  refl : ∀ p, R p p
  trans : ∀ {p p1 p2}, R p p1 → R p1 p2 → R p p2
  /-- The code changes, but no quad is appended. -/
  continued : ∀ {p : Progress} {c : Code}, p.code.Continues c → c.next = p.code.next →
    R p (p.withCode c)
  append : ∀ (p : Progress) {q : Quad}, IsPlain q → R p (p.appended q)
  returned : ∀ (p : Progress) (value : Operand),
    R p ((p.appended (assignQuad value .returnValue)).appended returnQuad)
  effectCall : ∀ {p p1 : Progress} {f : String} {g : FunctionDecl} {scope : Int} {es : List Expr}
    {as : List Argument}, p.env.find? f = some ⟨.fn g, scope⟩ → g.result = .nothing →
    es.length = g.parameters.length → argumentsOf g g.parameters es p = .ok as p1 → R p p1 →
    R p (p1.appendedAll (effectCallQuads as (calleeLabel g scope)))
  resultCall : ∀ {p p1 : Progress} {f : String} {g : FunctionDecl} {scope : Int} {es : List Expr}
    {as : List Argument}, p.env.find? f = some ⟨.fn g, scope⟩ → g.result ≠ .nothing →
    es.length = g.parameters.length → argumentsOf g g.parameters es p = .ok as p1 → R p p1 →
    R p ((p1.withCode (p1.code.newTemp g.result)).appendedAll
      (resultCallQuads as p1.code.temps.size (calleeLabel g scope)))

namespace Stepwise

variable {R : Progress → Progress → Prop} (hR : Stepwise R)

include hR

theorem statementSteps (result : Ty) : StatementSteps result (fun _ => ([] : List Unit))
    (fun _ => []) (fun _ => True) (fun p p' _ => R p p') (fun p p' _ => R p p')
    (fun _ _ => True) where
  weaken h := h
  join := hR.trans
  refl := hR.refl
  trans := hR.trans
  node _ _ h := h
  arithmetic {p _ _ _ _ _} _ _ _ h := by
    cases h
    exact ⟨trivial, hR.trans (hR.continued (.newTemp p.code .int) rfl)
      (hR.append _ rfl), trivial⟩
  element {p _ array extents _ _} _ _ _ _ h := by
    cases h
    have hcell := Code.Continues.newCell p.code .int ⟨array.shape.ty, extents.length⟩
    exact ⟨trivial, hR.trans (hR.continued hcell rfl) (hR.append _ rfl), trivial⟩
  resultCall _ hfind hresult hlength has h _ hp' _ :=
    ⟨trivial, hp' ▸ hR.resultCall hfind hresult hlength has h, trivial⟩
  collected s _ := by cases s <;> simp [Stmt.collect]
  patched _ hc _ := ⟨trivial, hR.continued hc (Code.next_patch _)⟩
  marked {p} _ := ⟨trivial, hR.continued (.mark p.code p.code.next) rfl⟩
  comparison {p _ _ relation a b _} _ _ _ h := by
    obtain ⟨-, -, -, -, rfl⟩ := comparison_ok h
    exact ⟨trivial, hR.trans (hR.append p (q := compareQuad relation a.operand b.operand) rfl)
      (hR.append _ rfl)⟩
  skipped _ := ⟨trivial, hR.append _ rfl⟩
  looped _ := ⟨trivial, hR.append _ rfl⟩
  assign _ _ _ hsound h := by
    obtain ⟨-, hscalar, -, rfl⟩ := assign_ok h
    refine ⟨trivial, hR.append _ (decide_eq_true ⟨by simp [assignQuad], fun hreturn => ?_⟩)⟩
    -- what is assigned to can be read
    have hreadable := hsound.readable hscalar
    rw [Option.some.inj hreturn] at hreadable
    exact hreadable
  returned _ _ _ _ := ⟨trivial, hR.returned _ _⟩
  left _ := ⟨trivial, hR.append _ rfl⟩
  effectCall _ hfind hresult hlength has h _ :=
    ⟨trivial, hR.effectCall hfind hresult hlength has h⟩

end Stepwise

end Emit

end BlockLang
