import BlockLang.Proofs.Code.Assignment
import BlockLang.Proofs.Emit.Induction

/-!
# Expressions, conditions and statements assign temporaries once

The operand of an expression is live until it is used, since the code of expressions is straight.
Conditions and statements lead jumps only to the next quad and back to the head of a loop, behind
which there are no uses of what came before.
-/

namespace BlockLang

open Code List

variable {c : Code} {as : List Argument} {l : Location} {o : Operand}

namespace Code

variable {c c' : Code} {first n : Nat}

/-- What is live stays so while quads of expressions are appended. -/
theorem Live.of_lengthens (h : c.Live first n) (hc : c.Lengthens c') : c'.Live first n := by
  obtain ⟨w, hfirst, hwrites, htargets⟩ := h
  refine ⟨w, hfirst, ?_, fun t ht => htargets t ?_⟩
  · rw [writes?_of_below (fun i hi => hc.getElem?_of_lt hi) (lt_next_of_writes? hwrites), hwrites]
  · rwa [isTarget, hc.targets] at ht

/-- The temporaries of an operand are live. -/
def LiveOperand (c : Code) (first : Nat) (o : Operand) : Prop := ∀ n ∈ o.temps, c.Live first n

theorem LiveOperand.of_temps (h : o.temps = []) : c.LiveOperand first o := by
  rw [LiveOperand, h]
  exact forall_mem_nil _

theorem LiveOperand.of_lengthens {o : Operand} (h : c.LiveOperand first o)
    (hc : c.Lengthens c') : c'.LiveOperand first o := fun n hn => (h n hn).of_lengthens hc

end Code

namespace Emit

open Code (LiveOperand)

variable {first lo : Nat} {p p' : Progress}

/-! ### Quads -/

section Quads

variable {c : Code} {a b : Operand} {n : Nat}

theorem live_of_mem_pair (ha : c.LiveOperand first a) (hb : c.LiveOperand first b)
    (hn : n ∈ a.temps ++ (b.temps ++ [])) : c.Live first n := by
  rw [append_nil] at hn
  exact (mem_append.mp hn).elim (ha n) (hb n)

theorem destination?_argumentQuad (a : Argument) : (argumentQuad a).destination? = none := by
  obtain ⟨value, byReference⟩ := a
  cases byReference <;> cases value <;> rfl

theorem reads_argumentQuad (a : Argument) : (argumentQuad a).reads = a.value.temps := by
  have hsecond : ∀ byReference : Bool,
      (if byReference then Operand.byReference else .byValue).temps = [] := by decide
  rw [Quad.reads, destination?_argumentQuad]
  simp [argumentQuad, hsecond, Quad.computes?]

theorem assigned_arguments (hc : c.Assigned first lo)
    (has : ∀ a ∈ as, c.LiveOperand first a.value) :
    (c.pushAll (as.map argumentQuad)).Assigned first lo := by
  induction as generalizing c with
  | nil => rwa [map_nil, pushAll_nil]
  | cons a as ih =>
    obtain ⟨ha, has⟩ := forall_mem_cons.mp has
    rw [map_cons, pushAll_cons]
    have hnone : (c.push (argumentQuad a)).writes? c.next = none := writes?_push nofun
    have hw := Writes.push (c := c) rfl rfl (destination?_argumentQuad a) (.inl ⟨hnone, rfl⟩)
    refine ih (hc.push hw rfl ?_) fun b hb n hn => (has b hb n hn).of_writes hw
    rw [reads_argumentQuad]
    exact ha

/-- A temporary is taken for the result of a call. -/
theorem writes_call (c : Code) (ty : Ty) (label : FunctionLabel) :
    c.Writes (((c.newTemp ty).push (destinationQuad c.temps.size)).push (callQuadOf label)) := by
  generalize hc1 : (c.newTemp ty).push (destinationQuad c.temps.size) = c1
  have hnext : c1.next = c.next + 1 := by rw [← hc1, next_push, next_newTemp]
  have hsize : (c1.push (callQuadOf label)).temps.size = c.temps.size + 1 := by simp [← hc1]
  have hbelow : ∀ i, i < c1.next →
      (c1.push (callQuadOf label)).quads[i]? = c1.quads[i]? := fun i => getElem?_push_of_lt
  have hdestination : (c1.push (callQuadOf label)).quads[c.next]? =
      some (destinationQuad c.temps.size) := by
    rw [hbelow _ (by omega), ← hc1]
    exact getElem?_push_next (c := c.newTemp ty)
  have hcall : (c1.push (callQuadOf label)).quads[c.next + 1]? = some (callQuadOf label) := by
    rw [← hnext, getElem?_push_next]
  have hwrites : (c1.push (callQuadOf label)).writes? (c.next + 1) = some c.temps.size := by
    rw [writes?, hcall, Nat.add_sub_cancel, hdestination]
    rfl
  -- of the two quads only the call writes
  have hlast : ∀ w m, c.next ≤ w → (c1.push (callQuadOf label)).writes? w = some m →
      w = c.next + 1 ∧ m = c.temps.size := fun w m hw hm => by
    have hlt := lt_next_of_writes? hm
    rw [next_push, hnext] at hlt
    obtain rfl | rfl : w = c.next ∨ w = c.next + 1 := by omega
    · rw [writes?, hdestination] at hm
      cases hm
    · exact ⟨rfl, Option.some.inj (hm.symm.trans hwrites)⟩
  exact {
    next_le := by rw [next_push]; omega
    below := fun i hi => by
      rw [hbelow i (by omega), ← hc1]
      exact getElem?_push_of_lt (c := c.newTemp ty) hi
    size_le := by omega
    isTarget := fun t => by
      rw [isTarget_push, ← hc1, isTarget_push, isTarget_newTemp]
    written := fun n hlow hhigh => ⟨c.next + 1, Nat.le_succ _, by rw [hwrites]; congr 1; omega⟩
    bound := fun w n hw hn => by
      obtain ⟨-, rfl⟩ := hlast w n hw hn
      omega
    once := fun w w' n hw hw' hn hn' => by rw [(hlast w n hw hn).1, (hlast w' n hw' hn').1]
    destination := fun i q n hi hq hn => by
      have hlt := lt_next_of_getElem? hq
      rw [next_push, hnext] at hlt
      obtain rfl | rfl : i = c.next ∨ i = c.next + 1 := by omega
      · cases hdestination.symm.trans hq
        cases hn
        exact hwrites
      · cases hcall.symm.trans hq
        cases hn }

theorem assigned_resultCall (hc : c.Assigned first lo) (has : ∀ a ∈ as, c.LiveOperand first a.value)
    (ty : Ty) (label : FunctionLabel) :
    ((c.newTemp ty).pushAll (resultCallQuads as c.temps.size label)).Assigned first lo ∧
      ((c.newTemp ty).pushAll (resultCallQuads as c.temps.size label)).Live first c.temps.size := by
  have heq : (c.newTemp ty).pushAll (resultCallQuads as c.temps.size label) =
      (((c.pushAll (as.map argumentQuad)).newTemp ty).push (destinationQuad
        (c.pushAll (as.map argumentQuad)).temps.size)).push (callQuadOf label) := by
    simp [Code.pushAll, Code.push, Code.newTemp, resultCallQuads]
  have hargs := assigned_arguments hc has
  have hwrites := writes_call (c.pushAll (as.map argumentQuad)) ty label
  rw [heq]
  refine ⟨hargs.append hwrites fun u q n hu hq hn => ?_, hargs.live hwrites (Nat.le_refl _) ?_⟩
  · -- neither of the two quads reads a temporary
    rw [Code.getElem?_push] at hq
    split at hq
    · cases hq
      cases hn
    obtain ⟨-, rfl⟩ := Code.eq_of_getElem?_push (c := (c.pushAll _).newTemp ty) hu hq
    cases hn
  · exact (Nat.lt_succ_self _).trans_eq (by simp [Code.pushAll])

theorem assigned_effectCall (hc : c.Assigned first lo) (has : ∀ a ∈ as, c.LiveOperand first a.value)
    (label : FunctionLabel) : (c.pushAll (effectCallQuads as label)).Assigned first lo := by
  have heq : c.pushAll (effectCallQuads as label) =
      (c.pushAll (as.map argumentQuad)).push (callQuadOf label) := by
    simp [Code.pushAll, Code.push, effectCallQuads]
  have hargs := assigned_arguments hc has
  rw [heq]
  exact hargs.pushPlain rfl (hargs.writes?_pushCall rfl) (forall_mem_nil _)

end Quads

variable (hp : p.code.Assigned first lo)

include hp

theorem arithmetic_assigned {operator : Arith} {a b : Operand} (ha : p.code.LiveOperand first a)
    (hb : p.code.LiveOperand first b) (h : arithmetic operator a b p = .ok o p') :
    p'.code.Assigned first lo ∧ p'.code.LiveOperand first o := by
  rw [arithmetic_run] at h
  cases h
  have hquads : (p.code.newTemp .int).quads = p.code.quads := rfl
  obtain ⟨hassigned, hlive⟩ := hp.pushNew (q := arithQuad operator a b p.code.temps.size) hquads rfl
    (by simp) nofun rfl rfl fun n => live_of_mem_pair ha hb
  exact ⟨hassigned, forall_mem_singleton.mpr hlive⟩

theorem element_assigned {array x : Computed} {extents : List Nat} {offset : Operand}
    (harray : p.code.LiveOperand first array.operand) (hoffset : p.code.LiveOperand first offset)
    (h : element array extents offset p = .ok x p') :
    p'.code.Assigned first lo ∧ p'.code.LiveOperand first x.operand := by
  rw [element_run] at h
  cases h
  have hquads : ((p.code.newTemp .int).describe p.code.temps.size
      ⟨array.shape.ty, extents.length⟩).quads = p.code.quads := rfl
  obtain ⟨hassigned, hlive⟩ := hp.pushNew (q := elementQuad array.operand offset p.code.temps.size)
    hquads rfl (by simp) nofun rfl rfl fun n => live_of_mem_pair harray hoffset
  exact ⟨hassigned, forall_mem_singleton.mpr hlive⟩

/-! ### Conditions and statements -/

theorem appendJump_assigned : (p.appended jumpQuad).code.Assigned first lo :=
  hp.pushPlain rfl (writes?_push nofun) (forall_mem_nil _)

theorem comparison_assigned {relation : Relation} {a b : Computed} {exits : Exits}
    (ha : p.code.LiveOperand first a.operand) (hb : p.code.LiveOperand first b.operand)
    (h : comparison l relation a b p = .ok exits p') : p'.code.Assigned first lo := by
  obtain ⟨-, -, -, -, rfl⟩ := comparison_ok h
  refine appendJump_assigned (hp.pushPlain (q := compareQuad relation a.operand b.operand) rfl
    (writes?_push nofun) fun n hn => live_of_mem_pair ha hb hn)

omit hp in
/-- What can be assigned to is a place and no temporary. -/
theorem computes?_assignQuad {env : Environment} (value : Operand) {target : Operand}
    (h : target.Located env c 0) : (assignQuad value target).computes? = none := by
  cases target with
  | temp n => cases h
  | _ => rfl

theorem assign_assigned {target value : Computed} (hplace : target.Sound p.env p.code 0)
    (htarget : p.code.LiveOperand first target.operand)
    (hvalue : p.code.LiveOperand first value.operand) (h : assign l target value p = .ok () p') :
    p'.code.Assigned first lo := by
  obtain ⟨hassignable, -, -, rfl⟩ := assign_ok h
  have hnone := computes?_assignQuad value.operand (hplace.located (.inl hassignable))
  have hop : (assignQuad value.operand target.operand).op ≠ .call := nofun
  refine hp.pushPlain rfl ((writes?_push hop).trans hnone) fun n hn => ?_
  rw [Quad.reads, hnone] at hn
  exact live_of_mem_pair hvalue htarget hn

theorem appendReturn_assigned : (p.appended returnQuad).code.Assigned first lo :=
  hp.pushPlain rfl (writes?_push nofun) (forall_mem_nil _)

omit hp

theorem checked_live {qs : List Parameter}
    (h : List.Forall₂ (Checked fun x => c.LiveOperand first x.operand) qs as) :
    ∀ a ∈ as, c.LiveOperand first a.value := by
  intro a ha
  obtain ⟨i, hi, rfl⟩ := mem_iff_getElem.mp ha
  obtain ⟨x, hx, -, -, -, heq⟩ := h.get (h.length_eq ▸ hi) hi
  rw [get_eq_getElem] at heq
  rw [heq]
  exact hx

/-- Temporaries are assigned once in each step of translation. -/
theorem statementSteps_assigned (result : Ty) (first lo : Nat) :
    StatementSteps result (fun _ => ([] : List Unit)) (fun _ => [])
      (fun p => p.code.Assigned first lo) (fun p p' _ => p.code.Lengthens p'.code)
      (fun _ _ _ => True) (fun p x => p.code.LiveOperand first x.operand) where
  refl _ := .refl _
  trans h h' := h.trans h'
  keep h hx := hx.of_lengthens h
  node _ _ h := h
  name _ h := by
    obtain ⟨-, b, -, ⟨v, -, rfl⟩ | ⟨q, -, rfl⟩⟩ := named_ok h
    · exact .of_temps rfl
    · exact .of_temps rfl
  int _ _ := .of_temps rfl
  char _ _ := .of_temps rfl
  string _ _ := .of_temps rfl
  asValue h := h
  arithmetic hp ha hb h := by
    obtain ⟨hp', ho⟩ := arithmetic_assigned hp ha hb h
    exact ⟨hp', (expressionSteps_lengthens.arithmetic trivial trivial trivial h).2.1, ho⟩
  element hp harray hne hoffset h := by
    obtain ⟨hp', hx⟩ := element_assigned hp harray hoffset h
    exact ⟨hp', (expressionSteps_lengthens.element trivial trivial hne trivial h).2.1, hx⟩
  resultCall {_ p1 p' l f es fn scope as} hp hfind hresult hlength has hstraight hchecked hp'
    hrun := by
    obtain ⟨hassigned, hlive⟩ := assigned_resultCall hp (checked_live hchecked) fn.result
      (calleeLabel fn scope)
    have hcode : p'.code = (p1.code.newTemp fn.result).pushAll (resultCallQuads as
        p1.code.temps.size (calleeLabel fn scope)) := by
      rw [hp', Progress.code_appendedAll]
      rfl
    rw [hcode]
    exact ⟨hassigned, hcode ▸ expression_lengthens _ hrun, forall_mem_singleton.mpr hlive⟩
  weaken _ := trivial
  join _ _ := trivial
  collected s _ := by cases s <;> simp [Stmt.collect]
  patched hp hc ht := ⟨hp.patch hc ht, trivial⟩
  marked hp := ⟨hp.markHere, trivial⟩
  comparison hp ha hb h := ⟨comparison_assigned hp ha hb h, trivial⟩
  skipped hp := ⟨appendJump_assigned hp, trivial⟩
  looped hp := ⟨hp.pushPlain rfl (writes?_push nofun) (forall_mem_nil _), trivial⟩
  assign hp htarget hvalue hplace h := ⟨assign_assigned hp hplace htarget hvalue h, trivial⟩
  returned {p x} hp hx _ _ := by
    refine ⟨appendReturn_assigned (hp.pushPlain (q := assignQuad x.operand .returnValue) rfl
      (writes?_push nofun) fun n hn => ?_), trivial⟩
    exact live_of_mem_pair hx (.of_temps rfl) hn
  left hp := ⟨appendReturn_assigned hp, trivial⟩
  effectCall {_ _ _ _ _ fn scope _} hp _ _ _ _ _ hchecked := by
    rw [Progress.code_appendedAll]
    exact ⟨assigned_effectCall hp (checked_live hchecked) (calleeLabel fn scope), trivial⟩

end Emit

end BlockLang
