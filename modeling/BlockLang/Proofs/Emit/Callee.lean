import BlockLang.Proofs.Emit.Induction

/-!
# The calls that a body makes

The calls among the quads of a body are the calls of its tree: arguments are computed in
front of their call, all else from left to right. A call names the function that its
name stands for where it is translated. Patching jumps does not change calls.
-/

namespace BlockLang

open BlockLang.Expr Code Emit List Option Quad

/-! ### Calls in trees -/

namespace Expr

mutual

/-- The names that are called in an expression, in the order of their calls. -/
def called : Expr → List String
  | index _ base first more => base.called ++ (first.called ++ calledAll more)
  | call _ f arguments => calledAll arguments ++ [f]
  | group _ inner => inner.called
  | arith _ _ left right | compare _ _ left right | logic _ _ left right =>
      left.called ++ right.called
  | sign _ _ operand | not _ operand => operand.called
  | _ => []

def calledAll : List Expr → List String
  | [] => []
  | e :: es => e.called ++ calledAll es

end

theorem flatMap_called (es : List Expr) : es.flatMap called = calledAll es := by
  induction es with
  | nil => rfl
  | cons e es ih => rw [flatMap_cons, calledAll, ih]

end Expr

namespace Stmt

mutual

/-- The names that are called in a statement, in the order of their calls. -/
def called : Stmt → List String
  | assign _ target value => target.called ++ value.called
  | call e => e.called
  | block body => calledAll body
  | ifThen c body => c.called ++ body.called
  | ifElse c body otherwise => c.called ++ (body.called ++ otherwise.called)
  | whileDo c body => c.called ++ body.called
  | returnValue _ value => value.called
  | _ => []

def calledAll : List Stmt → List String
  | [] => []
  | s :: ss => s.called ++ calledAll ss

end

theorem flatMap_called (ss : List Stmt) : ss.flatMap called = calledAll ss := by
  induction ss with
  | nil => rfl
  | cons s ss ih => rw [flatMap_cons, calledAll, ih]

end Stmt

/-! ### Calls among quads -/

def Quad.callee? (q : Quad) : Option FunctionLabel :=
  match q.op, q.output with
  | .call, some (.function l) => some l
  | _, _ => none

namespace Code

variable {c c' : Code}

/-- The functions that the quads of code call, in order. -/
def callees (c : Code) : List FunctionLabel := c.quads.toList.filterMap callee?

theorem callees_pushAll (c : Code) (qs : List Quad) :
    (c.pushAll qs).callees = c.callees ++ qs.filterMap callee? := by
  simp [callees, pushAll, filterMap_append]

theorem callees_push (c : Code) {q : Quad} (hq : q.callee? = none) :
    (c.push q).callees = c.callees := by
  simp [callees, push, filterMap_append, hq]

/-- A pending jump is no call, whether or not it is led to a target. -/
theorem callees_of_continues (h : c.Continues c') (hnext : c'.next = c.next) :
    c'.callees = c.callees := by
  have hcallee : c'.quads.toList.map callee? = c.quads.toList.map callee? := by
    refine ext_getElem? fun i => ?_
    rw [getElem?_map, getElem?_map, Array.getElem?_toList, Array.getElem?_toList]
    cases hq : c.quads[i]? with
    | none =>
      have hle : c'.next ≤ i := hnext ▸ Array.getElem?_eq_none_iff.mp hq
      rw [Array.getElem?_eq_none hle]
    | some q =>
      obtain hq' | ⟨hpending, t, hq'⟩ := h.quad i q hq
      · rw [hq']
      · have hcall : q.callee? = none := by simp [callee?, hpending]
        rw [hq', map_some, map_some, hcall]
        simp [callee?]
  have hreduce := congrArg (List.filterMap id) hcallee
  rwa [filterMap_map, filterMap_map] at hreduce

end Code

/-- The function that a name stands for, as calls name it. -/
def Environment.callee? (env : Environment) (x : String) : Option FunctionLabel :=
  match env.find? x with
  | some ⟨.fn g, scope⟩ => some (calleeLabel g scope)
  | _ => none

theorem Environment.find?_of_callee? {env : Environment} {x : String} {label : FunctionLabel}
    (h : env.callee? x = some label) :
    ∃ g scope, env.find? x = some ⟨.fn g, scope⟩ ∧ label = calleeLabel g scope := by
  unfold callee? at h
  split at h
  · rename_i g scope hfind
    exact ⟨g, scope, hfind, (some.inj h).symm⟩
  · cases h

/-- Calls of names are added, and the names still stand for the same. -/
structure Progress.Calls (p p' : Progress) (names : List String) : Prop where
  env : p'.env = p.env
  callees : p'.code.callees.map some = p.code.callees.map some ++ names.map p.env.callee?

theorem Progress.env_appendedAll (p : Progress) (qs : List Quad) :
    (p.appendedAll qs).env = p.env := by
  induction qs generalizing p with
  | nil => rfl
  | cons q qs ih => exact ih (p.appended q)

namespace Progress.Calls

variable {p p1 p2 : Progress} {a b : List String}

theorem refl (p : Progress) : p.Calls p [] := ⟨rfl, (append_nil _).symm⟩

theorem trans (h : p.Calls p1 a) (h' : p1.Calls p2 b) : p.Calls p2 (a ++ b) :=
  ⟨h'.env.trans h.env, by
    rw [h'.callees, h.callees, h.env, append_assoc, map_append]⟩

/-- A change of the code without calls. -/
theorem code (h : p.Calls p1 a) (henv : p2.env = p1.env)
    (hcode : p2.code.callees = p1.code.callees) :
    p.Calls p2 a := ⟨henv.trans h.env, by rw [hcode, h.callees]⟩

theorem appended (h : p.Calls p1 a) {q : Quad} (hq : q.callee? = none) :
    p.Calls (p1.appended q) a := h.code rfl (callees_push _ hq)

theorem patch (h : p.Calls p1 a) {l : List Nat} {t : Nat}
    (hc : p1.code.Continues (p1.code.patch l t)) :
    p.Calls (p1.withCode (p1.code.patch l t)) a :=
  h.code rfl (callees_of_continues hc (next_patch _))

theorem call (h : p.Calls p1 a) {x : String} {g : FunctionDecl} {scope : Int} {qs : List Quad}
    (hfind : p.env.find? x = some ⟨.fn g, scope⟩)
    (hqs : qs.filterMap callee? = [calleeLabel g scope]) :
    p.Calls (p1.appendedAll qs) (a ++ [x]) := by
  have hcallee : p.env.callee? x = some (calleeLabel g scope) := by
    rw [Environment.callee?, hfind]
  refine ⟨(env_appendedAll _ _).trans h.env, ?_⟩
  rw [code_appendedAll, callees_pushAll, hqs, map_append, h.callees, map_append,
    append_assoc, map_singleton, map_singleton, hcallee]

end Progress.Calls

/-! ### Calls that are emitted -/

namespace Emit

theorem callees_arguments (as : List Argument) :
    (as.map argumentQuad).filterMap callee? = [] := by
  rw [filterMap_map, filterMap_eq_nil_iff]
  exact fun _ _ => rfl

theorem callees_effectCallQuads (as : List Argument) (label : FunctionLabel) :
    (effectCallQuads as label).filterMap callee? = [label] := by
  rw [effectCallQuads, filterMap_append, callees_arguments]
  rfl

theorem callees_resultCallQuads (as : List Argument) (n : Nat) (label : FunctionLabel) :
    (resultCallQuads as n label).filterMap callee? = [label] := by
  rw [resultCallQuads, filterMap_append, callees_arguments]
  rfl

/-- The steps of translation make the calls of trees. -/
theorem statementSteps_calls (result : Ty) : StatementSteps result called Stmt.called
    (fun _ => True) Progress.Calls Progress.Calls (fun _ _ => True) where
  refl := .refl
  trans h h' := h.trans h'
  node {e _ _ _} he _ h := by
    cases e with
    | index l base first more =>
      rw [collect, flatMap_called] at h
      exact h
    | call l f es => exact absurd rfl (he l f es)
    | _ => exact h
  arithmetic _ _ _ h := by
    cases h
    exact ⟨trivial, (Progress.Calls.refl _).code rfl (callees_push _ rfl), trivial⟩
  element _ _ _ _ h := by
    cases h
    exact ⟨trivial, (Progress.Calls.refl _).code rfl (callees_push _ rfl), trivial⟩
  resultCall {p p1 _ _ _ es fn _ _} _ hfind _ _ _ h _ hp' _ := by
    rw [flatMap_called] at h
    have htemp : p.Calls (p1.withCode (p1.code.newTemp fn.result)) (calledAll es) :=
      h.code rfl rfl
    exact ⟨trivial, hp' ▸ htemp.call hfind (callees_resultCallQuads _ _ _), trivial⟩
  weaken h := h
  join h h' := h.trans h'
  collected s hs := by
    cases s with
    | block body => exact (Stmt.flatMap_called body).symm
    | call e => exact absurd rfl (hs e)
    | _ => rfl
  patched _ hc _ := ⟨trivial, (Progress.Calls.refl _).patch hc⟩
  marked _ := ⟨trivial, (Progress.Calls.refl _).code rfl rfl⟩
  comparison _ _ _ h := by
    obtain ⟨-, -, -, -, rfl⟩ := comparison_ok h
    exact ⟨trivial, ((Progress.Calls.refl _).appended rfl).appended rfl⟩
  skipped _ := ⟨trivial, (Progress.Calls.refl _).appended rfl⟩
  looped _ := ⟨trivial, (Progress.Calls.refl _).appended rfl⟩
  assign _ _ _ _ h := by
    obtain ⟨-, -, -, rfl⟩ := assign_ok h
    exact ⟨trivial, (Progress.Calls.refl _).appended rfl⟩
  returned _ _ _ _ := ⟨trivial, ((Progress.Calls.refl _).appended rfl).appended rfl⟩
  left _ := ⟨trivial, (Progress.Calls.refl _).appended rfl⟩
  effectCall _ hfind _ _ _ h _ := by
    rw [flatMap_called] at h
    exact ⟨trivial, h.call hfind (callees_effectCallQuads _ _)⟩

end Emit

end BlockLang
