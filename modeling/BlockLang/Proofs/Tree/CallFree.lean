import BlockLang.Proofs.Tree.Undisturbed

/-!
# Expressions and statements without calls

An expression without calls leaves the memory as it is. So between the evaluation of an
operand and its use nothing happens to the place that it stands for.
-/

namespace BlockLang

open Bool Eval

/-! ### Trees -/

namespace Expr

mutual

/-- There is no call in an expression or a condition. -/
def callFree : Expr → Bool
  | .index _ base first more => base.callFree && first.callFree && allCallFree more
  | .call .. => false
  | .group _ e | .sign _ _ e | .not _ e => e.callFree
  | .arith _ _ left right | .compare _ _ left right | .logic _ _ left right =>
      left.callFree && right.callFree
  | .name .. | .int .. | .char .. | .string .. | .missing _ => true

def allCallFree : List Expr → Bool
  | [] => true
  | e :: es => e.callFree && allCallFree es

end

end Expr

namespace Stmt

mutual

def callFree : Stmt → Bool
  | .empty | .returnNothing _ | .missing _ => true
  | .assign _ target value => target.callFree && value.callFree
  | .call _ => false
  | .block body => allCallFree body
  | .ifThen c body | .whileDo c body => c.callFree && body.callFree
  | .ifElse c body otherwise => c.callFree && body.callFree && otherwise.callFree
  | .returnValue _ value => value.callFree

def allCallFree : List Stmt → Bool
  | [] => true
  | s :: ss => s.callFree && allCallFree ss

end

end Stmt

/-! ### Expressions and conditions -/

namespace Expr

variable {ctx : Context}

mutual

/-- An expression without calls leaves the memory as it is. -/
theorem denote_keeps (reading : Reading) : ∀ e : Expr, e.callFree →
    (e.denote ctx reading).Keeps
  | .name _ x, _ => by
    rw [denote]
    exact keeps_ofOption _
  | .int .., _ => by
    rw [denote]
    exact keeps_pure _
  | .char .., _ => by
    rw [denote]
    exact keeps_pure _
  | .string .., _ => by
    rw [denote]
    exact keeps_pure _
  | .index _ base first more, h => by
    simp only [callFree, and_eq_true] at h
    rw [denote]
    refine (denote_keeps reading base h.1.1).bind fun array => ?_
    refine (denote_keeps reading first h.1.2).bind fun d => (keeps_settle _ d).bind fun d => ?_
    exact (subscripts_keeps reading more h.2 d).bind fun is => array.keeps_select is
  | .group _ inner, h => by
    rw [denote]
    exact denote_keeps reading inner h
  | .arith _ operator left right, h => by
    simp only [callFree, and_eq_true] at h
    rw [denote]
    refine (denote_keeps reading left h.1).bind fun a => (keeps_settle _ a).bind fun a => ?_
    refine (denote_keeps reading right h.2).bind fun b => ?_
    refine (keeps_read a).bind fun x => (keeps_read b).bind fun y => ?_
    exact (keeps_ofOption _).bind fun w => keeps_pure _
  | .sign _ .minus operand, h => by
    rw [denote]
    refine (denote_keeps reading operand h).bind fun d => ?_
    exact (keeps_read d).bind fun w => keeps_pure _
  | .sign _ .plus operand, h => by
    rw [denote]
    exact denote_keeps reading operand h
  | .compare .., _ => keeps_throw _
  | .logic .., _ => keeps_throw _
  | .not .., _ => keeps_throw _
  | .missing _, _ => keeps_throw _

theorem subscripts_keeps (reading : Reading) : ∀ es : List Expr, allCallFree es →
    ∀ d, (subscripts ctx reading d es).Keeps
  | [], _, d => by
    rw [subscripts]
    exact (keeps_read d).bind fun w => keeps_pure _
  | e :: es, h, d => by
    simp only [allCallFree, and_eq_true] at h
    rw [subscripts]
    refine (denote_keeps reading e h.1).bind fun d' => (keeps_read d).bind fun i => ?_
    refine (keeps_read d').bind fun j => ?_
    exact (subscripts_keeps reading es h.2 _).bind fun is => keeps_pure _

end

mutual

/-- Without calls no operand is changed before it is used. -/
theorem undisturbed_of_callFree : ∀ e : Expr, e.callFree → ∀ s, e.Undisturbed ctx s
  | .index _ base first more, h, s => by
    simp only [callFree, and_eq_true] at h
    rw [Undisturbed]
    refine ⟨undisturbed_of_callFree base h.1.1 s, fun _ s1 _ => ?_⟩
    refine ⟨undisturbed_of_callFree first h.1.2 s1, fun d s2 _ => ?_⟩
    exact undisturbedSubscripts_of_callFree more h.2 d s2
  | .group _ inner, h, s => by
    rw [Undisturbed]
    exact undisturbed_of_callFree inner h s
  | .arith _ operator left right, h, s => by
    simp only [callFree, and_eq_true] at h
    rw [Undisturbed]
    refine ⟨undisturbed_of_callFree left h.1 s, fun d s1 _ => ?_⟩
    exact ⟨undisturbed_of_callFree right h.2 s1, (denote_keeps .late right h.2).spares s1 d⟩
  | .sign _ _ operand, h, s => by
    rw [Undisturbed]
    exact undisturbed_of_callFree operand h s
  | .name .., _, _ => trivial
  | .int .., _, _ => trivial
  | .char .., _, _ => trivial
  | .string .., _, _ => trivial
  | .compare .., _, _ => trivial
  | .logic .., _, _ => trivial
  | .not .., _, _ => trivial
  | .missing _, _, _ => trivial

theorem undisturbedSubscripts_of_callFree : ∀ es : List Expr, allCallFree es →
    ∀ d s, UndisturbedSubscripts ctx d es s
  | [], _, _, _ => trivial
  | e :: es, h, d, s => by
    simp only [allCallFree, and_eq_true] at h
    rw [UndisturbedSubscripts]
    refine ⟨undisturbed_of_callFree e h.1 s, (denote_keeps .late e h.1).spares s d, ?_⟩
    exact fun _ s1 _ j _ => undisturbedSubscripts_of_callFree es h.2 (.value j) s1

end

theorem undisturbedCondition_of_callFree : ∀ e : Expr, e.callFree → ∀ s,
    e.UndisturbedCondition ctx s
  | .group _ inner, h, s => by
    rw [UndisturbedCondition]
    exact undisturbedCondition_of_callFree inner h s
  | .not _ operand, h, s => by
    rw [UndisturbedCondition]
    exact undisturbedCondition_of_callFree operand h s
  | .logic _ _ left right, h, s => by
    simp only [callFree, and_eq_true] at h
    rw [UndisturbedCondition]
    refine ⟨undisturbedCondition_of_callFree left h.1 s, fun _ s1 _ _ => ?_⟩
    exact undisturbedCondition_of_callFree right h.2 s1
  | .compare _ _ left right, h, s => by
    simp only [callFree, and_eq_true] at h
    rw [UndisturbedCondition]
    refine ⟨undisturbed_of_callFree left h.1 s, fun d s1 _ => ?_⟩
    exact ⟨undisturbed_of_callFree right h.2 s1, (denote_keeps .late right h.2).spares s1 d⟩
  | .name .., _, _ => trivial
  | .int .., _, _ => trivial
  | .char .., _, _ => trivial
  | .string .., _, _ => trivial
  | .index .., _, _ => trivial
  | .call .., _, _ => trivial
  | .arith .., _, _ => trivial
  | .sign .., _, _ => trivial
  | .missing _, _, _ => trivial

end Expr

/-! ### Statements -/

namespace Stmt

variable {ctx : Context} {stmt : Stmt}

theorem Visits.callFree {part : Stmt} {s s' : Store} (h : stmt.Visits ctx s part s')
    (hfree : stmt.callFree) : part.callFree := by
  induction h with
  | here => exact hfree
  | first _ ih =>
    simp only [Stmt.callFree, allCallFree, and_eq_true] at hfree
    exact ih hfree.1
  | rest _ _ ih =>
    simp only [Stmt.callFree, allCallFree, and_eq_true] at hfree
    exact ih hfree.2
  | ifThen _ _ ih =>
    simp only [Stmt.callFree, and_eq_true] at hfree
    exact ih hfree.2
  | @ifElse _ _ _ _ b _ _ _ _ _ ih =>
    simp only [Stmt.callFree, and_eq_true] at hfree
    cases b
    · exact ih hfree.2
    · exact ih hfree.1.2
  | once _ _ ih =>
    simp only [Stmt.callFree, and_eq_true] at hfree
    exact ih hfree.2
  | again _ _ _ ih => exact ih hfree

/-- When a statement without calls is run, no operand is changed before it is used. -/
theorem undisturbed_of_callFree (hfree : stmt.callFree) (s : Store) : stmt.Undisturbed ctx s := by
  intro part s' hv
  have hpart := hv.callFree hfree
  cases part with
  | assign _ target value =>
    simp only [callFree, and_eq_true] at hpart
    exact ⟨target.undisturbed_of_callFree hpart.1 s',
      fun _ s1 _ => value.undisturbed_of_callFree hpart.2 s1⟩
  | call e => cases hpart
  | returnValue _ value => exact value.undisturbed_of_callFree hpart s'
  | ifThen c body | whileDo c body =>
    simp only [callFree, and_eq_true] at hpart
    exact c.undisturbedCondition_of_callFree hpart.1 s'
  | ifElse c body otherwise =>
    simp only [callFree, and_eq_true] at hpart
    exact c.undisturbedCondition_of_callFree hpart.1.1 s'
  | empty | block | returnNothing | missing => trivial

end Stmt

end BlockLang
