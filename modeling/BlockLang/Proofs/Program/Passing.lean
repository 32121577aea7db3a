import BlockLang.Proofs.Program.Call

/-!
# What calls pass

The arguments of a call are checked against the parameters one after the other, and a
scalar has to have the type of its parameter. This holds for arguments that are passed by
reference, too: the address of an integer is never passed for a character, and that of an
array is passed for arrays only.
-/

namespace BlockLang

open Code CompiledFunction Emit List Progress

variable {i : Nat} {p p1 p2 : Progress} {q : Quad}

/-- An argument may be passed for a parameter: it is passed as the parameter asks, and if the
parameter is a scalar it has a value of its type. -/
def Argument.Suits (env : Environment) (c : Code) (a : Argument) (q : Parameter) : Prop :=
  a.byReference = q.byReference ∧ ((Declaration.param q).IsScalar →
    a.value.Readable env c 0 ∧ a.value.HasType env c q.ty)

theorem Argument.Suits.mono {env : Environment} {c c' : Code} {a : Argument} {q : Parameter}
    (h : a.Suits env c q) (hc : c.Extends c') : a.Suits env c' q :=
  ⟨h.1, fun hq => ⟨(h.2 hq).1.mono hc, (h.2 hq).2.mono hc⟩⟩

namespace Emit

/-- From a quad on stands the call of a visible function. Its arguments were computed right
before it and suit the parameters, and there is a destination exactly if there is a result, with
its type. -/
structure CallOf (env : Environment) (c : Code) (first : Nat) (g : FunctionDecl) (scope : Int)
    (as : List Argument) (destination : Option Nat) : Prop where
  visible : env.find? g.name = some ⟨.fn g, scope⟩
  stands : c.Stands first (callQuads as destination (calleeLabel g scope))
  arguments : List.Forall₂ (Argument.Suits env c) as g.parameters
  computed : ∃ es p p1, p.env = env ∧ es.length = g.parameters.length ∧
    argumentsOf g g.parameters es p = .ok as p1 ∧ p1.code.next = first ∧ p1.code.Continues c
  destination : destination = none ∧ g.result = .nothing ∨
    ∃ n, destination = some n ∧ g.result ≠ .nothing ∧ c.temps[n]? = some g.result

theorem callQuads_none (as : List Argument) (label : FunctionLabel) :
    callQuads as none label = effectCallQuads as label := by
  simp [callQuads, effectCallQuads]

theorem callQuads_some (as : List Argument) (n : Nat) (label : FunctionLabel) :
    callQuads as (some n) label = resultCallQuads as n label := by
  simp [callQuads, resultCallQuads]

theorem callQuads_not_pending (as : List Argument) (destination : Option Nat)
    (label : FunctionLabel) : ∀ q ∈ callQuads as destination label, q.output ≠ some .pending := by
  cases destination with
  | none =>
    rw [callQuads_none]
    exact effectCallQuads_not_pending as label
  | some n =>
    rw [callQuads_some]
    exact resultCallQuads_not_pending as n label

theorem CallOf.mono {env : Environment} {c c' : Code} {first : Nat} {g : FunctionDecl}
    {scope : Int} {as : List Argument} {destination : Option Nat}
    (h : CallOf env c first g scope as destination) (hc : c.Continues c') :
    CallOf env c' first g scope as destination where
  visible := h.visible
  stands k q hq := hc.of_not_pending (h.stands k q hq)
    (callQuads_not_pending _ _ _ q (mem_of_getElem? hq))
  arguments := h.arguments.imp fun _ _ hsuits => hsuits.mono hc.ext
  computed := by
    obtain ⟨es, p, p1, henv, hlength, has, hnext, hcode⟩ := h.computed
    exact ⟨es, p, p1, henv, hlength, has, hnext, hcode.trans hc⟩
  destination := h.destination.imp_right fun ⟨n, hn, hresult, hty⟩ =>
    ⟨n, hn, hresult, hc.ext.temps n _ hty⟩

/-- The quads from a number on continue those before, and their calls are calls of visible
functions with arguments that suit. -/
structure Passes (p p' : Progress) : Prop extends p.Continues p' where
  calls : p.env.Typed → ∀ i q, p.code.next ≤ i → p'.code.quads[i]? = some q → q.op = .call →
    ∃ first g scope as destination, CallOf p.env p'.code first g scope as destination ∧
      i = first + (as.length + destination.toList.length)

/-- The arguments that are computed for parameters suit them. -/
theorem argumentsOf_suits (f : FunctionDecl) : ∀ (qs : List Parameter) (es : List Expr)
    {as : List Argument} {p p' : Progress}, p.env.Typed → es.length = qs.length →
      argumentsOf f qs es p = .ok as p' →
      p.Continues p' ∧ List.Forall₂ (Argument.Suits p.env p'.code) as qs
  | [], es, as, p, p', _, _, h => by
    obtain ⟨rfl, rfl⟩ := argumentsOf_nil_ok (.inl rfl) h
    exact ⟨.refl _, .nil⟩
  | q :: qs, [], as, p, p', _, hlength, h => by cases hlength
  | q :: qs, e :: es, as, p, p', henv, hlength, h => by
    obtain ⟨c, p1, rest, hc, hty, hmatch, -, hrest, rfl⟩ := argumentsOf_cons_ok h
    obtain ⟨htypes, htyped⟩ := expression_types .nothing e hc
    obtain ⟨-, hsound⟩ := expression_emits e (Nat.zero_le _) hc
    obtain ⟨hcontinues, hsuits⟩ := argumentsOf_suits f qs es (htypes.env ▸ henv)
      (Nat.succ.inj hlength) hrest
    rw [htypes.env] at hsuits
    refine ⟨htypes.toContinues.trans hcontinues, .cons ⟨rfl, fun hscalar => ?_⟩ hsuits⟩
    have hextents : c.shape.extents = [] := by
      obtain ⟨hopen, hext⟩ := hscalar
      simpa [extentsMatch, hopen, hext] using hmatch
    refine ⟨(hsound.readable hextents).mono hcontinues.code.ext, ?_⟩
    exact hty ▸ ((htyped henv).operand hextents).mono hcontinues.code.ext

namespace Passes

theorem refl (p : Progress) : Passes p p :=
  ⟨.refl p, fun _ _ _ hi hq => absurd (lt_next_of_getElem? hq) (Nat.not_lt.mpr hi)⟩

/-- The code is continued, and what is new are calls with arguments that suit, or no calls. -/
theorem extend (h : Passes p p1) (h' : p1.Continues p2)
    (hnew : p.env.Typed → ∀ i q, p1.code.next ≤ i → p2.code.quads[i]? = some q → q.op = .call →
      ∃ first g scope as destination, CallOf p.env p2.code first g scope as destination ∧
        i = first + (as.length + destination.toList.length)) : Passes p p2 := by
  refine ⟨h.toContinues.trans h', fun henv i q hi hq hop => ?_⟩
  by_cases hlt : i < p1.code.next
  · -- the quad was there before, and it has only been led to a target since
    have hq1 := Array.getElem?_eq_getElem hlt
    have hop1 : p1.code.quads[i].op = .call := by
      obtain hsame | ⟨-, t, hled⟩ := h'.code.quad i _ hq1
      · cases hsame.symm.trans hq
        exact hop
      · cases hled.symm.trans hq
        exact hop
    obtain ⟨first, g, scope, as, destination, hcall, hi⟩ := h.calls henv i _ hi hq1 hop1
    exact ⟨first, g, scope, as, destination, hcall.mono h'.code, hi⟩
  · exact hnew henv i q (Nat.le_of_not_lt hlt) hq hop

/-- The quads of a call are appended behind those of its arguments. -/
theorem call {f : String} {g : FunctionDecl} {scope : Int} {es : List Expr} {as : List Argument}
    {destination : Option Nat} (h : Passes p p1) (hfind : p.env.find? f = some ⟨.fn g, scope⟩)
    (hlength : es.length = g.parameters.length) (has : argumentsOf g g.parameters es p = .ok as p1)
    (h' : p1.Continues p2) (hnext : p2.code.next = p1.code.next)
    (hdestination : destination = none ∧ g.result = .nothing ∨
      ∃ n, destination = some n ∧ g.result ≠ .nothing ∧ p2.code.temps[n]? = some g.result) :
    Passes p (p2.appendedAll (callQuads as destination (calleeLabel g scope))) := by
  have hpushed := Continues.pushAll p2.code (callQuads as destination (calleeLabel g scope))
  have hcode := code_appendedAll p2 (callQuads as destination (calleeLabel g scope))
  have hcontinues : p1.Continues
      (p2.appendedAll (callQuads as destination (calleeLabel g scope))) :=
    h'.trans ⟨hcode ▸ hpushed, env_appendedAll _ _⟩
  refine h.extend hcontinues fun henv i q hi hq hop => ?_
  have hcall : CallOf p.env (p2.code.pushAll (callQuads as destination (calleeLabel g scope)))
      p2.code.next g scope as destination := by
    refine ⟨?_, .of_pushAll (.refl _) (callQuads_not_pending _ _ _), ?_, ?_, hdestination⟩
    · rwa [show g.name = f from Environment.name_of_find? hfind]
    · obtain ⟨-, hsuits⟩ := argumentsOf_suits g g.parameters es henv hlength has
      exact hsuits.imp fun _ _ hsuits => hsuits.mono (h'.code.trans hpushed).ext
    · exact ⟨es, p, p1, rfl, hlength, has, hnext.symm, h'.code.trans hpushed⟩
  rw [hcode] at hq ⊢
  rw [getElem?_pushAll, if_neg (by omega)] at hq
  have hposition := op_callQuads hq
  rw [hop] at hposition
  refine ⟨p2.code.next, g, scope, as, destination, hcall, ?_⟩
  by_cases hlast : i - p2.code.next = as.length + destination.toList.length
  · omega
  · rw [if_neg hlast] at hposition
    cases hposition

end Passes

theorem Passes.trans (h : Passes p p1) (h' : Passes p1 p2) : Passes p p2 :=
  h.extend h'.toContinues fun henv i q hi hq hop => by
    have hcalls := h'.calls (h.env ▸ henv) i q hi hq hop
    rwa [h.env] at hcalls

/-- A quad is appended that is no call. -/
theorem Passes.append (p : Progress) (hcall : q.op ≠ .call) : Passes p (p.appended q) :=
  (Passes.refl p).extend ⟨.push _ _, rfl⟩ fun _ i r hi hr hop => by
    rw [appended_code] at hr
    have hlt := lt_next_of_getElem? hr
    rw [next_push] at hlt
    obtain rfl : i = p.code.next := by omega
    rw [getElem?_push_next] at hr
    cases hr
    exact absurd hop hcall

/-- All calls among the quads of a body have arguments that suit. -/
theorem passes_stepwise : Stepwise Passes where
  refl := .refl
  trans := .trans
  continued {p c} hc hnext := (Passes.refl p).extend ⟨hc, rfl⟩ fun _ i q hi hq => by
    exact absurd (lt_next_of_getElem? hq) (by rw [withCode_code]; omega)
  append p _ hq := .append p (of_decide_eq_true hq).1
  returned p value := (Passes.append p (q := assignQuad value .returnValue) nofun).trans
    (.append _ nofun)
  effectCall hfind hresult hlength has h := by
    rw [← callQuads_none]
    exact h.call hfind hlength has (.refl _) rfl (.inl ⟨rfl, hresult⟩)
  resultCall {p p1 f g scope es as} hfind hresult hlength has h := by
    rw [← callQuads_some]
    exact h.call hfind hlength has ⟨.newTemp p1.code g.result, rfl⟩ rfl
      (.inr ⟨_, rfl, hresult, by simp⟩)

end Emit

/-- What the steps of translation respect is respected by that of a function. -/
theorem CompiledFunction.Closes.stepwise {R : Progress → Progress → Prop} {r : CompiledFunction}
    (h : r.Closes p) (hR : Stepwise R) : R r.opened r.closed := by
  obtain ⟨-, hbody⟩ := (hR.statementSteps r.function.result).statements _ r.body trivial
    (.refl 0 _) h.statements
  have hemits := statements_emits r.function.name r.function.result r.body (Nat.zero_le _)
    (.refl 0 _) h.statements
  have hpatched := hR.continued (hemits.grows.continues_patch (List.Subset.refl _)
    r.translated.code.next) (next_patch _)
  exact hR.trans (hR.append r.opened (q := .start r.label) rfl)
    (hR.trans (hR.trans hbody hpatched) (hR.append _ rfl))

/-- The calls of a program have arguments that were computed for them and suit. -/
theorem Compiles.exists_callOf {tree : Decl} {p : Progress} {rs : List CompiledFunction}
    {r : CompiledFunction} (h : Compiles tree p rs) (htext : tree.InText) (htyped : tree.IsTyped)
    (hr : r ∈ rs) (hi : r.first ≤ i) (hq : r.closed.code.quads[i]? = some q) (hop : q.op = .call) :
    ∃ first g scope as destination,
      r.CallsFrom first g scope as destination ∧
      i = first + (as.length + destination.toList.length) ∧
      CallOf r.opened.env r.closed.code first g scope as destination := by
  obtain ⟨p', hcloses⟩ := h.closes r hr
  have henv := h.typed_env htext htyped hr
  have hclosed := hcloses.stepwise passes_stepwise
  obtain ⟨first, g, scope, as, destination, hcall, hi⟩ := hclosed.calls henv i q hi hq hop
  have htypes : ∀ o ty, o.HasType r.opened.env r.closed.code ty → r.site.Types o ty :=
    fun o ty ho a => by
      have hsite : o.HasType r.site.env r.site.code ty := ho
      exact hsite.typeOf a
  have hscalars := scalarParameters_of_find hcall.visible henv.scalars
  refine ⟨first, g, scope, as, destination, ⟨hcall.visible, hcall.stands, ?_, ?_⟩, hi,
    hcall⟩
  · refine forall₂_iff_get.mpr ⟨hcall.arguments.length_eq, fun k hk hk' => ?_⟩
    have hsuits := (forall₂_iff_get.mp hcall.arguments).2 k hk hk'
    exact ⟨hsuits.1, fun hvalue => htypes _ _ (hsuits.2 (hscalars _ (get_mem _ _) hvalue)).2⟩
  · exact hcall.destination.imp_right fun ⟨n, hn, hresult, hty⟩ =>
      ⟨n, hn, hresult, htypes (.temp n) _ hty⟩

/-! ### Returns -/

namespace Emit

/-- The quads from a number on continue those before, and where one of them sets the result
the next one is a return. -/
structure Returning (p p' : Progress) : Prop extends p.Continues p' where
  returns : ∀ i value, p.code.next ≤ i →
    p'.code.quads[i]? = some (assignQuad value .returnValue) →
    p'.code.quads[i + 1]? = some returnQuad

namespace Returning

variable {p p1 p2 : Progress}

theorem refl (p : Progress) : Returning p p :=
  ⟨.refl p, fun _ _ hi hq => absurd (lt_next_of_getElem? hq) (Nat.not_lt.mpr hi)⟩

/-- The code is continued, and where something new sets the result it is followed by a
return. -/
theorem extend (h : Returning p p1) (h' : p1.Continues p2)
    (hnew : ∀ i value, p1.code.next ≤ i →
      p2.code.quads[i]? = some (assignQuad value .returnValue) →
      p2.code.quads[i + 1]? = some returnQuad) : Returning p p2 := by
  refine ⟨h.toContinues.trans h', fun i value hi hq => ?_⟩
  by_cases hlt : i < p1.code.next
  · -- neither of the two quads is a jump, so both are as they were
    have hq1 : p1.code.quads[i]? = some (assignQuad value .returnValue) := by
      obtain hsame | ⟨-, t, hled⟩ := h'.code.quad i _ (Array.getElem?_eq_getElem hlt)
      · rw [Array.getElem?_eq_getElem hlt, ← hsame, hq]
      · cases congrArg Quad.output (Option.some.inj (hled.symm.trans hq))
    exact h'.code.of_not_pending (h.returns i value hi hq1) nofun
  · exact hnew i value (Nat.le_of_not_lt hlt) hq

theorem trans (h : Returning p p1) (h' : Returning p1 p2) : Returning p p2 :=
  h.extend h'.toContinues h'.returns

theorem append (p : Progress) {q : Quad} (hq : q.output ≠ some .returnValue) :
    Returning p (p.appended q) :=
  (refl p).extend ⟨.push _ _, rfl⟩ fun i value hi hset => by
    rw [appended_code] at hset
    have hlt := lt_next_of_getElem? hset
    rw [next_push] at hlt
    obtain rfl : i = p.code.next := by omega
    rw [getElem?_push_next] at hset
    cases hset
    exact absurd rfl hq

/-- The quads of a call do not set the result. -/
theorem appendCall (h : Returning p p1) (h' : p1.Continues p2) (hnext : p2.code.next = p1.code.next)
    (as : List Argument) (destination : Option Nat) (label : FunctionLabel) :
    Returning p (p2.appendedAll (callQuads as destination label)) := by
  have hcode := code_appendedAll p2 (callQuads as destination label)
  refine h.extend (h'.trans ⟨hcode ▸ .pushAll _ _, env_appendedAll _ _⟩) ?_
  intro i value hi hset
  rw [hcode, getElem?_pushAll, if_neg (by omega)] at hset
  have hop := op_callQuads hset
  split at hop <;> cases hop

end Returning

/-- Among the quads of a body, results are set right in front of returns. -/
theorem returning_stepwise : Stepwise Returning where
  refl := .refl
  trans := .trans
  continued {p c} hc hnext := (Returning.refl p).extend ⟨hc, rfl⟩ fun i value hi hq => by
    exact absurd (lt_next_of_getElem? hq) (by rw [withCode_code]; omega)
  append p _ hq := .append p (of_decide_eq_true hq).2
  returned p value := by
    have hfirst : (p.appended (assignQuad value .returnValue)).code.next = p.code.next + 1 :=
      next_push
    refine (Returning.refl p).extend ⟨(Continues.push _ _).trans (.push _ _), rfl⟩ ?_
    intro i value' hi hset
    rw [appended_code] at hset ⊢
    have hlt := lt_next_of_getElem? hset
    rw [next_push] at hlt
    obtain rfl | rfl : i = p.code.next ∨ i = p.code.next + 1 := by omega
    · rw [← hfirst, getElem?_push_next]
    · rw [← hfirst, getElem?_push_next] at hset
      cases hset
  effectCall {p p1 f g scope es as} _ _ _ _ h := by
    rw [← callQuads_none]
    exact h.appendCall (.refl _) rfl as none _
  resultCall {p p1 f g scope es as} _ _ _ _ h := by
    rw [← callQuads_some]
    have htemp : p1.Continues (p1.withCode (p1.code.newTemp g.result)) := ⟨.newTemp _ _, rfl⟩
    exact h.appendCall htemp rfl as (some _) _

end Emit

end BlockLang
