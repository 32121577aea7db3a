import BlockLang.Proofs.Execution
import BlockLang.Proofs.Invocation.Transfer

/-!
# Frames along a run

As long as no subscript that is stored through is out of range, every line is reached with the
frames intact. The last line of a quad leads to another quad of the function, to the start of a
function that is called, or back to the lines after a call.
-/

namespace BlockLang

open Assembly Instruction Invocation List Lower Processor

/-- The line after a call of a function of the program is known by its address, and standard
routines return with the base of the caller restored and only their return address taken from
the stack. -/
structure Launch.Suits (l : Launch) (program : List Instruction) : Prop where
  code : ∀ n t, program[n]? = some (.call t) → .label t ∈ program →
    ∀ m ≤ program.length, l.image.code m = l.image.code (n + 1) → m = n + 1
  routine : ∀ t σ σ', l.image.routine t σ σ' →
    σ'.registers .ebp = σ.registers .ebp ∧ σ'.registers .esp = σ.registers .esp + 4

/-! ### Single lines -/

namespace Scene.Step

variable {image : Image} {program : List Instruction} {rs : List CompiledFunction}
  {stack : List Invocation} {S' : Scene} {n start k : Nat} {σ σ1 : Processor} {i : Instruction}

/-- A straight line that follows on others leads to the next one. -/
theorem of_straight (h : Step image program rs ⟨stack, ⟨start + k, σ1⟩⟩ S')
    (hran : Ran image program start k σ σ1) (hline : program[start + k]? = some i)
    (hi : i.IsStraight) :
    ∃ σ2, Ran image program start (k + 1) σ σ2 ∧ S' = ⟨stack, ⟨start + (k + 1), σ2⟩⟩ := by
  have hstack : S'.stack = stack := h.stack_eq hline
    (fun t ht => by rw [ht] at hi; exact hi) (fun ht => by rw [ht] at hi; exact hi)
  obtain ⟨σ2, hexec, hmoment⟩ := h.moment.of_straight hline hi
  exact ⟨σ2, hran.succ hline hexec, Scene.ext hstack hmoment⟩

theorem of_jmp {t : String} (h : Step image program rs ⟨stack, ⟨n, σ⟩⟩ S')
    (hline : program[n]? = some (.jmp t)) :
    ∃ target, program.idxOf? (.label t) = some target ∧ S' = ⟨stack, ⟨target, σ⟩⟩ := by
  have hstack : S'.stack = stack := h.stack_eq hline nofun nofun
  obtain ⟨target, htarget, hmoment⟩ := h.moment.of_jmp hline
  exact ⟨target, htarget, Scene.ext hstack hmoment⟩

theorem of_jcc {relation : Relation} {t : String}
    (h : Step image program rs ⟨stack, ⟨n, σ⟩⟩ S') (hline : program[n]? = some (.jcc relation t)) :
    ∃ target f, program.idxOf? (.label t) = some target ∧ σ.flags = some f ∧
      S' = ⟨stack, ⟨if f.holds relation then target else n + 1, σ⟩⟩ := by
  have hstack : S'.stack = stack := h.stack_eq hline nofun nofun
  obtain ⟨target, f, htarget, hflags, hmoment⟩ := h.moment.of_jcc hline
  exact ⟨target, f, htarget, hflags, Scene.ext hstack hmoment⟩

/-- A return takes an invocation from the stack. -/
theorem of_ret (h : Step image program rs ⟨stack, ⟨n, σ⟩⟩ S') (hline : program[n]? = some .ret) :
    ∃ a rest target, stack = a :: rest ∧ target ≤ program.length ∧
      σ.store.read .int (σ.registers .esp) = image.code target ∧
      S' = ⟨rest, ⟨target, σ.set .esp (σ.registers .esp + 4)⟩⟩ := by
  obtain ⟨target, hle, hread, hmoment⟩ := h.moment.of_ret hline
  cases h with
  | inside _ hret => exact absurd hline hret
  | enter _ _ hcall => cases hline.symm.trans hcall
  | leave =>
    cases hmoment
    exact ⟨_, _, target, rfl, hle, hread, rfl⟩

/-- A call of a function puts its invocation on the stack. -/
theorem of_enter {tree : Decl} {p : Progress} {callee : CompiledFunction}
    (hcompiles : Compiles tree p rs)
    (h : Step image p.assembly.program rs ⟨stack, ⟨n, σ⟩⟩ S') (hcallee : callee ∈ rs)
    (hline : p.assembly.program[n]? = some (.call callee.label.text)) :
    ∃ σ1, σ.push? image (image.code (n + 1)) = some σ1 ∧
      S' = ⟨ofCall callee (n + 1) σ1 :: stack, ⟨callee.line callee.first, σ1⟩⟩ := by
  obtain ⟨-, -, hlabel⟩ := hcompiles.start_lines hcallee
  obtain ⟨σ1, hpush, ⟨target, htarget, hmoment⟩ | ⟨hnone, -⟩⟩ := h.moment.of_call hline
  · cases hlabel.symm.trans htarget
    refine ⟨σ1, hpush, ?_⟩
    cases h with
    | inside _ _ hcall => cases (hcall _ hline).symm.trans hlabel
    | enter _ hcallee' hcall =>
      have htext : callee.label.text = _ :=
        Instruction.call.inj (Option.some.inj (hline.symm.trans hcall))
      cases hcompiles.eq_of_text_eq hcallee hcallee' htext
      cases hmoment
      rfl
    | leave _ hret => cases hline.symm.trans hret
  · cases hlabel.symm.trans hnone

/-- A call of a standard routine leaves the stack of invocations alone. -/
theorem of_routine {t : String} (h : Step image program rs ⟨stack, ⟨n, σ⟩⟩ S')
    (hline : program[n]? = some (.call t)) (hnone : program.idxOf? (.label t) = none)
    (hrs : ∀ r ∈ rs, (program.idxOf? (.label r.label.text)).isSome) :
    ∃ σ1 σ2, σ.push? image (image.code (n + 1)) = some σ1 ∧ image.routine t σ1 σ2 ∧
      S' = ⟨stack, ⟨n + 1, σ2⟩⟩ := by
  obtain ⟨σ1, hpush, ⟨target, htarget, -⟩ | ⟨-, σ2, hroutine, hmoment⟩⟩ := h.moment.of_call hline
  · cases hnone.symm.trans htarget
  · refine ⟨σ1, σ2, hpush, hroutine, ?_⟩
    cases h with
    | inside => cases hmoment; rfl
    | enter _ hcallee hcall =>
      cases hline.symm.trans hcall
      have hsome := hrs _ hcallee
      rw [hnone] at hsome
      cases hsome
    | leave _ hret => cases hline.symm.trans hret

end Scene.Step

/-! ### Quads that are not part of a call -/

namespace Lower.Continues

variable {front lines others : List Instruction} {σ : Processor} {i next : Nat}
  {target : Option Operand} {x : Instruction}

/-- What comes after the lines in front is a jump. -/
theorem exists_rest (h : Continues front σ i target next lines) :
    ∃ rest, lines = front ++ rest ∧ ∀ x ∈ rest.head?, ¬ x.IsStraight := by
  cases h with
  | next => exact ⟨[], (append_nil _).symm, by simp⟩
  | jump => exact ⟨_, rfl, fun x hx => by cases hx; exact id⟩
  | branch => exact ⟨_, rfl, fun x hx => by cases hx; exact id⟩

/-- With a jump its target comes next, or the next quad. -/
theorem of_jump (h : Continues front σ i target next (front ++ x :: others)) :
    ∃ t, target = some (.target t) ∧ (x = .jmp (quadLabel t) ∧ next = t ∨
      others = [] ∧ ∃ relation f, σ.flags = some f ∧ x = .jcc relation (quadLabel t) ∧
        next = if f.holds relation then t else i + 1) := by
  generalize hlines : front ++ x :: others = lines at h
  cases h with
  | next => simp at hlines
  | jump ht =>
    cases append_cancel_left hlines
    exact ⟨_, ht, .inl ⟨rfl, rfl⟩⟩
  | branch hflags ht =>
    cases append_cancel_left hlines
    exact ⟨_, ht, .inr ⟨rfl, _, _, hflags, rfl, rfl⟩⟩

end Lower.Continues

section Inner

variable {tree : Decl} {p : Progress} {rs : List CompiledFunction} {r : CompiledFunction} {i : Nat}
  {q : Quad} {base : Nat → Word} {σ : Processor}

/-- The lines of a quad that is not part of a call: all but a jump at the end are straight, and
when these have been run the quad has been performed. They can be run unless it traps. -/
theorem Compiles.inner_lines (h : Compiles tree p rs) (htext : tree.InText) (hr : r ∈ rs)
    (hi : r.first ≤ i) (hq : r.closed.code.quads[i]? = some q) (hop : q.op.IsInner)
    (image : Image) (hσ : σ.Running base r.path.length) :
    ∃ front rest, Straight front ∧ (∀ x ∈ rest.head?, ¬ x.IsStraight) ∧
      r.line (i + 1) = r.line i + (front ++ rest).length ∧
      Placed p.assembly.program (r.line i) (front ++ rest) ∧
      (¬ (r.layout rs).Traps base σ.store q → ∃ σ', σ.runAll? image front = some σ') ∧
      ∀ σ', σ.runAll? image front = some σ' → ∃ o,
        (r.layout rs).effect? base σ.store image p.assembly.strings.toList q i = some o ∧
          σ.Performed o σ' ∧ Continues front σ' i q.output o.next (front ++ rest) := by
  obtain ⟨p', hcloses⟩ := h.closes r hr
  obtain ⟨hwf, hpending⟩ := hcloses.wellFormed hi hq
  have hagrees := h.layout_agrees htext hr
  rw [Layout.Traps, hagrees.value?_eq]
  by_cases htraps : r.site.layout.Traps base σ.store q
  · -- the lines of a division without a result cannot all be run
    obtain ⟨op, first, second, output⟩ := q
    obtain ⟨operator, -, -, -, -, rfl, -⟩ := id htraps
    obtain ⟨x, y, n, rfl, -, rfl, -, rfl, -⟩ := hwf
    obtain ⟨lines, ⟨hstraight, hnone⟩, hsize, hplaced⟩ := h.marked_lines hr hi hq
      (adds_and (basic_arith operator _ _ _).straight
        (arith_traps image base (h.reaching hr) operator x y (.temp n)))
    refine ⟨r.mark i ++ lines, [], (r.straight_mark i).append hstraight, by simp, ?_, ?_,
      absurd htraps, ?_⟩
    · rw [append_nil, hsize]
    · rwa [append_nil]
    · intro σ' hrun
      rw [runAll?_append_eq, r.runAll?_mark, Option.bind_some, hnone σ hσ htraps] at hrun
      cases hrun
  · obtain ⟨o, ho⟩ := h.exists_effect hr hi hq hop image base σ.store htraps
    obtain ⟨lines, hperforms, hsize, hplaced⟩ := h.marked_lines hr hi hq
      (quad_performs image base (h.reaching hr) hop hwf hpending i)
    obtain ⟨front, σ', hrun, hperformed, hcontinues⟩ := hperforms σ o hσ ho
    replace hrun := runAll?_append (r.runAll?_mark i image σ) hrun
    replace hcontinues := hcontinues.append (r.mark i)
    obtain ⟨rest, hrest, hhead⟩ := hcontinues.exists_rest
    rw [hrest] at hsize hplaced hcontinues
    refine ⟨_, rest, straight_of_runAll? hrun, hhead, hsize, hplaced, fun _ => ⟨σ', hrun⟩, ?_⟩
    intro σ1 hrun1
    cases hrun.symm.trans hrun1
    exact ⟨o, by rw [hagrees.effect?_eq, ho], hperformed, hcontinues⟩

/-- A return is a jump to the end of the function. -/
theorem Compiles.ret_lines (h : Compiles tree p rs) (hr : r ∈ rs) (hi : r.first ≤ i)
    (hq : r.closed.code.quads[i]? = some q) (hop : q.op = .ret) :
    r.line (i + 1) = r.line i + (r.mark i ++ [jmp (endLabel r.label)]).length ∧
      Placed p.assembly.program (r.line i) (r.mark i ++ [jmp (endLabel r.label)]) := by
  obtain ⟨_, rfl, hnext, hplaced⟩ := h.marked_lines hr hi hq
    (P := fun _ _ lines => lines = [jmp (endLabel r.label)]) (by
      rw [quad, hop]
      exact emit_adds _)
  exact ⟨hnext, hplaced⟩

end Inner

/-- The quad of an argument has no lines. -/
theorem Lower.par_adds {site : FunctionSite} {q : Quad} (hop : q.op = .par) :
    Adds (quad site q) fun _ _ lines => lines = [] := by
  obtain ⟨op, first, second, output⟩ := q
  cases hop
  have hmodify : ∀ f : Assembly → Assembly, (∀ a, (f a).lines = a.lines) →
      (∀ a, (f a).strings = a.strings) → Adds (modify f) fun _ _ lines => lines = [] := by
    intro f hlines hstrings a b a' hrun
    cases hrun
    refine ⟨[], ⟨?_, ?_⟩, fun _ _ => rfl⟩
    · rw [hlines, append_nil]
    · rw [hstrings]
  cases first with
  | none => exact adds_throw _
  | some value =>
    cases second with
    | none => exact adds_throw _
    | some mode =>
      cases mode with
      | byValue => exact hmodify _ (fun _ => rfl) fun _ => rfl
      | byReference => exact hmodify _ (fun _ => rfl) fun _ => rfl
      | returnDestination => exact hmodify _ (fun _ => rfl) fun _ => rfl
      | _ => exact adds_throw _

/-! ### The lines of a quad -/

/-- Some lines of a quad have been run since the processor was poised. -/
structure Invocation.Amid (p : Progress) (l : Launch) (rs : List CompiledFunction)
    (a : Invocation) (rest : List Invocation) (i k : Nat) (q : Quad) (σ σ' : Processor) :
    Prop where
  poised : a.Poised p l rs 0 rest σ
  first_lt : a.function.first < i
  quad : a.function.closed.code.quads[i]? = some q
  line_lt : a.function.line i + k < a.function.line (i + 1)
  ranged : 0 < k → a.Ranged l rs σ.store rest q
  ran : Ran l.image p.assembly.program (a.function.line i) k σ σ'

section Steps

open Scene

variable {tree : Decl} {p : Progress} {l : Launch} {rs : List CompiledFunction} {a : Invocation}
  {rest stack : List Invocation} {i j k words back : Nat} {q : Quad} {σ σ1 : Processor} {S' : Scene}
  {front others tail : List Instruction} {destination : Option Nat}

/-- One of the straight lines in front leads to the next line. -/
theorem Scene.Step.advance {image : Image} {program : List Instruction} {start : Nat}
    (h : Step image program rs ⟨stack, ⟨start + k, σ1⟩⟩ S')
    (hran : Ran image program start k σ σ1) (hplaced : Placed program start front)
    (hstraight : Straight front) (hk : k < front.length) :
    ∃ σ2, Ran image program start (k + 1) σ σ2 ∧ S' = ⟨stack, ⟨start + (k + 1), σ2⟩⟩ ∧
      (k + 1 = front.length → σ.runAll? image front = some σ2) := by
  obtain ⟨σ2, hran2, rfl⟩ := h.of_straight hran (hplaced k _ (getElem?_eq_getElem hk))
    (hstraight _ (getElem_mem hk))
  exact ⟨σ2, hran2, rfl, fun hlength => (ran_iff hplaced).mp (hlength ▸ hran2)⟩

variable (hcompiles : Compiles tree p rs) (htext : tree.InText)

include hcompiles htext

/-- A function returns to the line after a call of a function. -/
theorem Invocation.Returned.exists_call (h : Returned p a rest) (ha : a.function ∈ rs) :
    ∃ n t, a.back = n + 1 ∧ p.assembly.program[n]? = some (.call t) ∧
      .label t ∈ p.assembly.program := by
  have hlabel : ∀ r ∈ rs, .label r.label.text ∈ p.assembly.program := fun r hr => by
    obtain ⟨-, -, hentry⟩ := hcompiles.start_lines hr
    exact isSome_idxOf?.mp (hentry ▸ rfl)
  cases rest with
  | nil =>
    obtain ⟨main, hmain, -, -, hplaced⟩ := hcompiles.entry_lines htext
    exact ⟨10, _, h.1, hplaced.right.head, hlabel main hmain⟩
  | cons b rest =>
    obtain ⟨⟨n, hback, hline⟩, -⟩ := h
    exact ⟨n, _, hback, hline, hlabel _ ha⟩

theorem Invocation.Returned.back_le (h : Returned p a rest) (ha : a.function ∈ rs) :
    a.back ≤ p.assembly.program.length := by
  obtain ⟨n, t, hback, hline, -⟩ := h.exists_call hcompiles htext ha
  rw [hback]
  exact (List.getElem?_eq_some_iff.mp hline).1

theorem Launch.Suits.eq_back (hsuits : l.Suits p.assembly.program) (h : Returned p a rest)
    (ha : a.function ∈ rs) {m : Nat}
    (hm : m ≤ p.assembly.program.length) (hcode : l.image.code m = l.image.code a.back) :
    m = a.back := by
  obtain ⟨n, t, hback, hline, hlabel⟩ := h.exists_call hcompiles htext ha
  rw [hback] at hcode ⊢
  exact hsuits.code n t hline hlabel m hm hcode

/-- After a call come the lines that clean up, or else the next quad. -/
theorem Invocation.Poised.located_back (h : a.Poised p l rs words rest σ)
    (htyped : tree.IsTyped)
    (hresumes : a.function.Resumes p j words destination back tail) :
    Located p l rs ⟨a :: rest, ⟨back, σ⟩⟩ := by
  cases tail with
  | nil =>
    obtain ⟨_, hrun, hpoised, -⟩ := h.resumed hcompiles htext htyped hresumes
    cases hrun
    have hfirst := hresumes.first_lt
    have hlast := hresumes.lt_last
    have hnext : a.function.line (j + 1) = back := hresumes.next
    rw [← hnext]
    exact hpoised.located hcompiles (by omega) hlast
  | cons x tail => exact .resume (k := 0) h hresumes (Nat.succ_pos _) (ran_zero ..)

omit hcompiles htext

namespace Invocation.Amid

theorem located (h : a.Amid p l rs rest i k q σ σ1) :
    Located p l rs ⟨a :: rest, ⟨a.function.line i + k, σ1⟩⟩ :=
  .body h.poised h.first_lt h.quad h.line_lt h.ranged h.ran

/-- What is stored is in range. -/
theorem ranged_of_inRange (h : a.Amid p l rs rest i k q σ σ1)
    (hrange : Scene.InRange l p.assembly.program rs ⟨a :: rest, ⟨a.function.line i + k, σ1⟩⟩ S') :
    a.Ranged l rs σ.store rest q := by
  cases k with
  | zero =>
    cases h.ran
    exact hrange.stores a rest i q rfl rfl h.line_lt h.first_lt.le h.quad
  | succ k => exact h.ranged k.succ_pos

/-- A line of a quad leads to its next line, or past all of its lines. It can also be one that
is not straight. -/
theorem cases (h : a.Amid p l rs rest i k q σ σ1)
    (hstep : Step l.image p.assembly.program rs ⟨a :: rest, ⟨a.function.line i + k, σ1⟩⟩ S')
    (hrange : Scene.InRange l p.assembly.program rs ⟨a :: rest, ⟨a.function.line i + k, σ1⟩⟩ S')
    (hplaced : Placed p.assembly.program (a.function.line i) (front ++ others))
    (hnext : a.function.line (i + 1) = a.function.line i + (front ++ others).length)
    (hstraight : Straight front) (hothers : ∀ x ∈ others.head?, ¬ x.IsStraight) :
    Located p l rs S' ∨
      (others = [] ∧ ∃ σ2, σ.runAll? l.image front = some σ2 ∧
        S' = ⟨a :: rest, ⟨a.function.line (i + 1), σ2⟩⟩) ∨
      ∃ x xs, others = x :: xs ∧ k = front.length ∧ σ.runAll? l.image front = some σ1 ∧
        p.assembly.program[a.function.line i + front.length]? = some x := by
  have hlt := h.line_lt
  rw [hnext] at hlt
  obtain ⟨hk, -⟩ | ⟨rfl, hrun, x, xs, rfl, hline⟩ :=
    h.ran.cases hplaced hstraight hothers (by omega)
  · obtain ⟨σ2, hran, rfl, hdone⟩ := hstep.advance h.ran hplaced.left hstraight hk
    by_cases hmore : a.function.line i + (k + 1) < a.function.line (i + 1)
    · have hamid : a.Amid p l rs rest i (k + 1) q σ σ2 :=
        ⟨h.poised, h.first_lt, h.quad, hmore, fun _ => h.ranged_of_inRange hrange, hran⟩
      exact .inl hamid.located
    · rw [hnext, length_append] at hmore
      have hnil : others = [] := eq_nil_of_length_eq_zero (by omega)
      refine .inr (.inl ⟨hnil, σ2, hdone (by omega), ?_⟩)
      rw [hnext, hnil, append_nil, show front.length = k + 1 by omega]
  · exact .inr (.inr ⟨x, xs, rfl, rfl, hrun, hline⟩)

section Kinds

variable (h : a.Amid p l rs rest i k q σ σ1)
  (hstep : Step l.image p.assembly.program rs ⟨a :: rest, ⟨a.function.line i + k, σ1⟩⟩ S')
  (hrange : Scene.InRange l p.assembly.program rs ⟨a :: rest, ⟨a.function.line i + k, σ1⟩⟩ S')

include h hcompiles hstep hrange

/-- The quad of an argument is only its label. -/
theorem located_par (hop : q.op = .par) (hlast : i < a.function.last) : Located p l rs S' := by
  have hr := h.poised.standing.function_mem
  obtain ⟨_, rfl, hnext, hplaced⟩ :=
    hcompiles.marked_lines hr h.first_lt.le h.quad (par_adds hop)
  obtain hlocated | ⟨-, σ2, hrun, rfl⟩ | ⟨x, xs, hnil, -⟩ :=
    h.cases hstep hrange hplaced hnext (a.function.straight_mark i) (by simp)
  · exact hlocated
  · cases (a.function.runAll?_mark i l.image σ).symm.trans hrun
    exact h.poised.located hcompiles (h.first_lt.trans (Nat.lt_succ_self i)) hlast
  · cases hnil

/-- A return leads to the end of the function. -/
theorem located_ret (hop : q.op = .ret) : Located p l rs S' := by
  have hr := h.poised.standing.function_mem
  obtain ⟨p', hcloses⟩ := hcompiles.closes _ hr
  obtain ⟨hnext, hplaced⟩ := hcompiles.ret_lines hr h.first_lt.le h.quad hop
  obtain hlocated | ⟨hnil, -⟩ | ⟨x, xs, hx, rfl, hrun, hline⟩ := h.cases hstep hrange hplaced hnext
    (a.function.straight_mark i) fun x hx => by cases hx; exact id
  · exact hlocated
  · cases hnil
  · cases hx
    obtain ⟨hfinish, hplaced, hlabel⟩ := hcompiles.finish_lines hr
    obtain ⟨target, htarget, rfl⟩ := hstep.of_jmp hline
    cases hlabel.symm.trans htarget
    cases (a.function.runAll?_mark i l.image σ).symm.trans hrun
    refine .body h.poised hcloses.first_lt_last (CompiledFunction.Closes.quad_last _) ?_
      (fun _ => nofun) ((ran_iff hplaced.left.left).mpr (a.function.runAll?_mark _ l.image σ))
    rw [hfinish, length_append, length_append]
    change _ < _ + (_ + 3 + 1)
    omega

include htext

/-- A quad that is not part of a call leads to another quad of the function. -/
theorem located_inner (htyped : tree.IsTyped) (hop : q.op.IsInner) (hlast : i < a.function.last) :
    Located p l rs S' := by
  have hr := h.poised.standing.function_mem
  have hfirst := h.first_lt
  obtain ⟨p', hcloses⟩ := hcompiles.closes _ hr
  obtain ⟨front, others, hstraight, hothers, hnext, hplaced, -, hperforms⟩ :=
    hcompiles.inner_lines htext hr hfirst.le h.quad hop l.image (h.poised.running _)
  have hpoised : ∀ {o σ2}, (a.function.layout rs).effect? (σ.store.frames a.base) σ.store l.image
      p.assembly.strings.toList q i = some o → σ.Performed o σ2 → a.Poised p l rs 0 rest σ2 :=
    fun ho hperformed => h.poised.performed (h.poised.standing.effect hcompiles htext htyped
      hfirst.le h.quad (h.ranged_of_inRange hrange) ho) hperformed
  obtain hlocated | ⟨rfl, σ2, hrun, rfl⟩ | ⟨x, xs, rfl, rfl, hrun, hline⟩ :=
    h.cases hstep hrange hplaced hnext hstraight hothers
  · exact hlocated
  · obtain ⟨o, ho, hperformed, -⟩ := hperforms σ2 hrun
    exact (hpoised ho hperformed).located hcompiles (by omega) hlast
  · obtain ⟨o, ho, hperformed, hcontinues⟩ := hperforms σ1 hrun
    obtain ⟨t, ht, hjump⟩ := hcontinues.of_jump
    obtain ⟨hfirst', hlast', htarget⟩ := hcloses.target hfirst.le h.quad ht
    have hlabel := hcompiles.idxOf?_quadLabel hr hfirst'.le hlast' htarget
    obtain ⟨rfl, -⟩ | ⟨rfl, relation, f, hflags, rfl, -⟩ := hjump
    · obtain ⟨target, htarget', rfl⟩ := hstep.of_jmp hline
      cases hlabel.symm.trans htarget'
      exact (hpoised ho hperformed).located hcompiles hfirst' hlast'
    · obtain ⟨target, f', htarget', hflags', rfl⟩ := hstep.of_jcc hline
      cases hlabel.symm.trans htarget'
      split
      · exact (hpoised ho hperformed).located hcompiles hfirst' hlast'
      · have hline' : a.function.line i + front.length + 1 = a.function.line (i + 1) := by
          rw [hnext, length_append]
          rfl
        rw [hline']
        exact (hpoised ho hperformed).located hcompiles (by omega) hlast

/-- A call leads to the start of the function, or to the lines after the call of a routine. -/
theorem located_call (htyped : tree.IsTyped) (hsuits : l.Suits p.assembly.program)
    (hop : q.op = .call) : Located p l rs S' := by
  have hr := h.poised.standing.function_mem
  obtain ⟨g, scope, as, destination, front, tail, hcall⟩ :=
    hcompiles.exists_callsAt htext htyped hr h.first_lt.le h.quad hop
  obtain hlocated | ⟨hnil, -⟩ | ⟨x, xs, hx, rfl, hrun, hline⟩ := h.cases hstep hrange hcall.placed
    hcall.next hcall.straight_front fun x hx => by cases hx; exact id
  · exact hlocated
  · cases hnil
  cases hx
  obtain ⟨ws, hpiled, hws⟩ := (h.poised.pushes hcompiles htext hcall).1 σ1 hrun
  obtain ⟨first, hcalls, -⟩ := hcall.calls
  cases hdepth : (Emit.calleeLabel g scope).depth with
  | none =>
    have hnone := hcompiles.idxOf?_standard htext hr hcalls.visible hdepth
    obtain ⟨σ2, σ3, hpush, hroutine, rfl⟩ := hstep.of_routine hline hnone fun r hr => by
      rw [(hcompiles.start_lines hr).2.2]
      rfl
    obtain ⟨hebp, hesp⟩ := hsuits.routine _ _ _ hroutine
    obtain ⟨-, rfl⟩ := push?_eq_some.mp hpush
    have hlink : linkOf? σ.store a (Emit.calleeLabel g scope) = none := by
      rw [linkOf?, hdepth]
      rfl
    rw [hlink] at hpiled
    have hpoised : a.Poised p l rs ws.length rest σ3 := h.poised.routine hpiled
      (hrange.routines _ hline hnone) hebp (hesp.trans (Int32.sub_add_cancel ..))
    refine hpoised.located_back hcompiles htext htyped (hcall.resumes ?_)
    rw [hdepth, ← hws.length_eq]
    exact Nat.zero_add _
  | some depth =>
    obtain ⟨callee, hcallee, hlabel, -⟩ :=
      hcompiles.exists_target htext hr h.first_lt.le hcall.quad rfl hdepth
    have hlink : linkOf? σ.store a (Emit.calleeLabel g scope) =
        some (σ.store.frames a.base (a.function.site.hops depth).toNat) := by
      rw [linkOf?, hdepth]
      rfl
    rw [hlink] at hpiled
    obtain ⟨σ2, hpush, rfl⟩ := hstep.of_enter hcompiles hcallee (hlabel ▸ hline)
    have hentered := h.poised.entered hcompiles htext htyped hcall hcallee hlabel
      (hlabel ▸ hdepth) hpiled hws hpush
    exact .head (k := 0) hentered (by decide) (ran_zero ..)

/-- The end of a function leads to the lines after its call, or to the end of the program. -/
theorem located_finish (htyped : tree.IsTyped) (hsuits : l.Suits p.assembly.program)
    (hlast : i = a.function.last) : Located p l rs S' := by
  subst hlast
  have hr := h.poised.standing.function_mem
  obtain ⟨hnext, hplaced, -⟩ := hcompiles.finish_lines hr
  obtain hlocated | ⟨hnil, -⟩ | ⟨x, xs, hx, rfl, hrun, hline⟩ := h.cases hstep hrange hplaced hnext
    ((a.function.straight_mark _).append fun x hx => by
      fin_cases hx <;> trivial) fun x hx => by cases hx; exact id
  · exact hlocated
  · cases hnil
  cases hx
  obtain ⟨σ2, hrun', hstore, -, hebp, hback, hesp⟩ := h.poised.left a.function.last
  cases hrun'.symm.trans hrun
  obtain ⟨_, _, target, hstack, hle, hread, rfl⟩ := hstep.of_ret hline
  cases hstack
  -- the line to return to is known by its address
  obtain ⟨hreturned, -⟩ := h.poised.returns
  obtain rfl : target = a.back :=
    hsuits.eq_back hcompiles htext hreturned hr hle (hread.symm.trans hback)
  cases rest with
  | nil =>
    rw [hreturned.1]
    exact .exit (k := 0) (by decide)
  | cons b rest =>
    obtain ⟨-, j, destination, tail, hresumes⟩ := hreturned
    have hpoised : b.Poised p l rs (a.arity + 1) rest (σ1.set .esp (σ1.registers .esp + 4)) :=
      h.poised.returned hstore hebp hesp
    exact hpoised.located_back hcompiles htext htyped hresumes

end Kinds

end Invocation.Amid

/-! ### Lines and runs -/

section Runs

variable {S : Scene} (htyped : tree.IsTyped) (hsuits : l.Suits p.assembly.program)

include hcompiles htext htyped hsuits

/-- A line leads from one place in the program to another. -/
theorem Scene.Located.step (h : Located p l rs S) (hstep : Step l.image p.assembly.program rs S S')
    (hrange : Scene.InRange l p.assembly.program rs S S') : Located p l rs S' := by
  cases h with
  | @entry k σ hk ran =>
    obtain ⟨main, hmain, hpath, hparameters, hplaced⟩ := hcompiles.entry_lines htext
    have hstraight : Straight entryLines := fun x hx => by fin_cases hx <;> trivial
    obtain ⟨hk', -⟩ | ⟨rfl, hrun, x, xs, hx, hline⟩ := ran.cases hplaced hstraight
      (fun x hx => by cases hx; exact id) (hk.trans (show 8 < 15 by decide))
    · obtain ⟨σ2, hran, rfl, -⟩ := hstep.advance ran hplaced.left hstraight hk'
      exact .entry (Nat.succ_lt_succ hk') hran
    · cases hx
      obtain ⟨σ2, hpush, rfl⟩ := hstep.of_enter hcompiles hmain hline
      exact .head (k := 0) (entered_of_start hmain hpath hparameters hrun hpush) (by decide)
        (ran_zero ..)
  | @exit k σ hk =>
    obtain ⟨main, -, -, -, hplaced⟩ := hcompiles.entry_lines htext
    have hplaced : Placed p.assembly.program 11 (exitLines ++ [ret]) := hplaced.right.tail
    have hstraight : Straight exitLines := fun x hx => by fin_cases hx <;> trivial
    obtain hk' | rfl : k < 6 ∨ k = 6 := by omega
    · obtain ⟨σ2, -, rfl⟩ := hstep.of_straight (k := 0) (ran_zero ..)
        (hplaced.left k _ (getElem?_eq_getElem hk')) (hstraight _ (getElem_mem _))
      exact .exit (k := k + 1) (by omega)
    · -- there is nothing to return to
      obtain ⟨_, _, _, hstack, -⟩ := hstep.of_ret hplaced.right.head
      cases hstack
  | @head c rest k σ σ1 entered hk ran =>
    have hr : c.function ∈ rs := entered.sound.mem _ mem_cons_self
    obtain ⟨p', hcloses⟩ := hcompiles.closes _ hr
    obtain ⟨hnext, hplaced, -⟩ := hcompiles.start_lines hr
    obtain ⟨σ2, hran, rfl, hdone⟩ := hstep.advance ran hplaced
      (fun x hx => by fin_cases hx <;> trivial) hk
    obtain hk' | rfl : k + 1 < 4 ∨ k = 3 := by omega
    · exact .head entered hk' hran
    · rw [← show c.function.line (c.function.first + 1) = c.function.line c.function.first + (3 + 1)
        from hnext]
      exact (entered.poised (hdone rfl)).1.located hcompiles (Nat.lt_succ_self _)
        hcloses.first_lt_last
  | @body a rest i k q σ σ1 poised hi hq hk ranged ran =>
    have hamid : a.Amid p l rs rest i k q σ σ1 := ⟨poised, hi, hq, hk, ranged, ran⟩
    obtain ⟨p', hcloses⟩ := hcompiles.closes _ poised.standing.function_mem
    obtain ⟨rfl, -⟩ | ⟨hlast, -⟩ | ⟨-, hlast, hunit, hend⟩ := hcloses.quad_cases hi.le hq
    · exact absurd hi (lt_irrefl _)
    · exact hamid.located_finish hcompiles htext hstep hrange htyped hsuits hlast
    cases hop : q.op with
    | unit => exact absurd hop hunit
    | endUnit => exact absurd hop hend
    | call => exact hamid.located_call hcompiles htext hstep hrange htyped hsuits hop
    | par => exact hamid.located_par hcompiles hstep hrange hop hlast
    | ret => exact hamid.located_ret hcompiles hstep hrange hop
    | _ =>
      exact hamid.located_inner hcompiles htext hstep hrange htyped (by rw [hop]; trivial) hlast
  | @resume a rest j words back k destination tail σ σ1 poised resumes hk ran =>
    obtain ⟨σ2, hran, rfl, hdone⟩ := hstep.advance ran resumes.placed resumes.straight hk
    by_cases hk' : k + 1 < tail.length
    · exact .resume poised resumes hk' hran
    · obtain ⟨σ3, hrun, hpoised, -⟩ := poised.resumed hcompiles htext htyped resumes
      have hlength : k + 1 = tail.length := by omega
      cases hrun.symm.trans (hdone hlength)
      rw [hlength, ← resumes.next]
      exact hpoised.located hcompiles (resumes.first_lt.trans (Nat.lt_succ_self j)) resumes.lt_last

/-- A run leads from one place in the program to another. -/
theorem Scene.Runs.located (h : Runs l p.assembly.program rs S S') (hS : Located p l rs S) :
    Located p l rs S' := by
  induction h with
  | refl => exact hS
  | tail _ hlast ih => exact ih.step hcompiles htext htyped hsuits hlast.1 hlast.2

end Runs

end Steps

end BlockLang
