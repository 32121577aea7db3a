import BlockLang.Proofs.Program.Call
import BlockLang.Proofs.Program.Layout
import BlockLang.Proofs.Program.Placement

/-!
# The lines of a function

A function starts by saving the base of its caller and making room for its frame, and it ends
by giving both back. In between stand the lines of its quads, in their order. Those of a call
push the arguments and the link, call, and clean up.
-/

namespace BlockLang

open Assembly CompiledFunction CompiledFunction.Closes Emit Instruction List Lower Option Processor

namespace CompiledFunction

/-- The label in front of a quad, if jumps lead there. -/
def mark (r : CompiledFunction) (i : Nat) : List Instruction :=
  if r.closed.code.isTarget i then [.label (quadLabel i)] else []

theorem straight_mark (r : CompiledFunction) (i : Nat) : Straight (r.mark i) := by
  unfold mark
  split
  · exact straight_singleton trivial
  · exact forall_mem_nil _

theorem runAll?_mark (r : CompiledFunction) (i : Nat) (image : Image) (σ : Processor) :
    σ.runAll? image (r.mark i) = some σ := by
  unfold mark
  split <;> rfl

/-- The first lines of a function. -/
def startLines (r : CompiledFunction) : List Instruction :=
  [.label r.label.text, .push base, move .ebp (.register .esp),
    .sub .esp (.immediate r.frame.size)]

/-- The last lines of a function, in front of the return. -/
def finishLines (r : CompiledFunction) : List Instruction :=
  [.label (endLabel r.label), move .esp base, .pop .ebp]

section Runs

variable {σ σ' : Processor} {image : Image}

/-- The first lines of a function save the base of the caller below the top of the stack,
where the new base is, and make room for the frame. -/
theorem runAll?_startLines (r : CompiledFunction) :
    σ.runAll? image r.startLines = some σ' ↔ image.floor + 4 ≤ (σ.registers .esp).number ∧
      image.floor + r.frame.size ≤ (σ.registers .esp - 4).number ∧
      σ' = ((((σ.set .esp (σ.registers .esp - 4)).withStore (σ.store.write .int
        (σ.registers .esp - 4) (σ.registers .ebp))).set .ebp (σ.registers .esp - 4)).set .esp
          (σ.registers .esp - 4 - .ofNat r.frame.size)).withFlags none := by
  have hlines : σ.runAll? image r.startLines = (σ.push? image (σ.registers .ebp)).bind fun σ1 =>
      (Instruction.sub .esp (.immediate r.frame.size)).exec? image
        (σ1.set .ebp (σ1.registers .esp)) := by
    refine congrArg (bind (σ.push? image (σ.registers .ebp))) (funext fun σ1 => ?_)
    exact runAll?_singleton _
  have hsub : ∀ σ1 : Processor, (Instruction.sub .esp (.immediate r.frame.size)).exec? image σ1 =
      some σ' ↔ image.floor + r.frame.size ≤ (σ1.registers .esp).number ∧
        (σ1.set .esp (σ1.registers .esp - .ofNat r.frame.size)).withFlags none = σ' := by
    intro σ1
    change (if (image.floor : Int) + (r.frame.size : Int) ≤ ((σ1.registers .esp).number : Int) then
      some ((σ1.set .esp (σ1.registers .esp - .ofInt r.frame.size)).withFlags none) else none) =
        some σ' ↔ _
    rw [ite_none_right_eq_some, some.injEq, Int32.ofInt_eq_ofNat]
    exact and_congr (by omega) Iff.rfl
  rw [hlines, bind_eq_some_iff]
  simp only [push?_eq_some, hsub]
  constructor
  · rintro ⟨σ1, ⟨hroom, rfl⟩, hframe, rfl⟩
    exact ⟨hroom, hframe, rfl⟩
  · rintro ⟨hroom, hframe, rfl⟩
    exact ⟨_, ⟨hroom, rfl⟩, hframe, rfl⟩

/-- The last lines of a function take the frame away and restore the base of the caller. -/
theorem exists_runAll?_finishLines (r : CompiledFunction) (i : Nat) (image : Image)
    (σ : Processor) : ∃ σ', σ.runAll? image (r.mark i ++ r.finishLines) = some σ' ∧
      σ'.store = σ.store ∧ σ'.registers .esp = σ.registers .ebp + 4 ∧
      σ'.registers .ebp = σ.store.read .int (σ.registers .ebp) ∧
      σ'.registers .eax = σ.registers .eax :=
  ⟨_, runAll?_append (r.runAll?_mark i image σ) rfl, rfl, rfl, rfl, rfl⟩

end Runs

/-- The lines of a call: some push words, and some come after the call. -/
structure CallLines (p : Progress) (r : CompiledFunction) (j : Nat) (callee : FunctionLabel)
    (as : List Argument) (destination : Option Nat) (front tail : List Instruction) : Prop where
  first_lt : r.first < j
  lt_last : j < r.last
  placed : Placed p.assembly.program (r.line j) (front ++ .call callee.text :: tail)
  next : r.line (j + 1) = r.line j + (front ++ .call callee.text :: tail).length
  straight_front : Straight front
  straight_tail : Straight tail
  numbered : ∀ x ∈ as, x.Numbered p.assembly.strings.toList
  arguments : ∀ x ∈ as,
    if x.byReference then x.value.Located r.opened.env r.closed.code r.opened.code.temps.size
    else x.value.Readable r.opened.env r.closed.code r.opened.code.temps.size
  writable : ∀ n, destination = some n →
    (Operand.temp n).Readable r.opened.env r.closed.code r.opened.code.temps.size
  pushes : ∀ (image : Image) (base : Nat → Word),
    Pushes image base (r.path.length + 1) (links r.site callee base ++
      as.map (Argument.word? r.site.layout base image p.assembly.strings.toList)) front
  cleans : ∀ (image : Image) (base : Nat → Word),
    Cleans image base (r.path.length + 1) r.site.layout
      ((links r.site callee base).length + as.length) (destination.map .temp) tail

end CompiledFunction

/-- The first lines of a program. They save registers and push the link of its function. -/
def Assembly.entryLines : List Instruction :=
  [.label "main", .push (.register .ebp), .mov (.register .ebp) (.register .esp),
    .push (.register .ebx), .push (.register .esi), .push (.register .edi), .push (.register .ebp)]

/-- The lines at the end of a program, in front of the return. -/
def Assembly.exitLines : List Instruction :=
  [.add .esp (.immediate Frame.word), .pop .edi, .pop .esi, .pop .ebx, .xor .eax .eax, .pop .ebp]

theorem FunctionSite.Reaching.mono {site : FunctionSite} {m n : Nat} (h : site.Reaching m)
    (hle : m ≤ n) : site.Reaching n :=
  fun x b hb hfn => ⟨(h x b hb hfn).1, (h x b hb hfn).2.trans hle⟩

/-- Lines that push words do so after a label. -/
theorem Lower.Pushes.after_mark {image : Image} {base : Nat → Word} {depth : Nat}
    {finds : List (Store → Option Word)} {lines : List Instruction}
    (h : Pushes image base depth finds lines) (r : CompiledFunction) (i : Nat) :
    Pushes image base depth finds (r.mark i ++ lines) := by
  intro σ hσ hfinds
  rw [runAll?_append_eq, r.runAll?_mark, bind_some]
  exact h σ hσ hfinds

namespace Compiles

variable {tree : Decl} {p : Progress} {rs : List CompiledFunction} {r : CompiledFunction}
  {i j : Nat} {q : Quad}

variable (h : Compiles tree p rs)

include h

/-- Quads have their lines in their order. -/
theorem line_mono (hr : r ∈ rs) (hi : r.first ≤ i) (hij : i ≤ j) (hj : j ≤ r.last + 1) :
    r.line i ≤ r.line j := by
  obtain ⟨p', hcloses⟩ := h.closes r hr
  obtain ⟨lines, happends⟩ := hcloses.appends_before (h.settled r hr) hi hij hj
  rw [line, line, happends.size_eq]
  exact Nat.le_add_right _ _

/-- The lines of a quad come after its mark. -/
theorem marked_lines (hr : r ∈ rs) (hi : r.first ≤ i) (hq : r.closed.code.quads[i]? = some q)
    {P : List String → Unit → List Instruction → Prop} (hP : Adds (quad r.site q) P) :
    ∃ lines, P p.assembly.strings.toList () lines ∧
      r.line (i + 1) = r.line i + (r.mark i ++ lines).length ∧
      Placed p.assembly.program (r.line i) (r.mark i ++ lines) := by
  obtain ⟨_, ⟨lines, rfl, hlines⟩, hsize, hplaced⟩ :=
    h.quad_lines hr hi hq (numbered_adds hP i)
  exact ⟨lines, hlines, hsize, hplaced⟩

/-- A function starts with its first lines. -/
theorem start_lines (hr : r ∈ rs) :
    r.line (r.first + 1) = r.line r.first + 4 ∧
      Placed p.assembly.program (r.line r.first) r.startLines ∧
      p.assembly.program.idxOf? (.label r.label.text) = some (r.line r.first) := by
  obtain ⟨p', hcloses⟩ := h.closes r hr
  obtain ⟨lines, rfl, hsize, hplaced⟩ := h.marked_lines hr le_rfl hcloses.quad_first
    (P := fun _ _ lines => lines = r.startLines) (adds_emitAll fun _ => rfl)
  have hmark : r.mark r.first = [] :=
    if_neg (hcloses.not_isTarget_first (h.complete r hr))
  rw [hmark, nil_append] at hsize hplaced
  exact ⟨hsize, hplaced, idxOf?_label h.nodup_labels hplaced.head⟩

/-- A function ends with its last lines. -/
theorem finish_lines (hr : r ∈ rs) :
    r.line (r.last + 1) = r.line r.last + (r.mark r.last ++ r.finishLines ++ [ret]).length ∧
      Placed p.assembly.program (r.line r.last) (r.mark r.last ++ r.finishLines ++ [ret]) ∧
      p.assembly.program.idxOf? (.label (endLabel r.label)) =
        some (r.line r.last + (r.mark r.last).length) := by
  obtain ⟨p', hcloses⟩ := h.closes r hr
  obtain ⟨lines, rfl, hsize, hplaced⟩ := h.marked_lines hr hcloses.first_lt_last.le
    (quad_last r)
    (P := fun _ _ lines => lines = r.finishLines ++ [ret]) (adds_emitAll fun _ => rfl)
  have hlabel := idxOf?_label h.nodup_labels hplaced.right.head
  rw [← append_assoc] at hsize hplaced
  exact ⟨hsize, hplaced, hlabel⟩

/-- A program starts by calling its function. -/
theorem entry_lines (htext : tree.InText) : ∃ r ∈ rs, r.path = [] ∧
    r.function.parameters = [] ∧ Placed p.assembly.program 3
      (entryLines ++ .call r.label.text :: (exitLines ++ [ret])) := by
  obtain ⟨r, p1, p2, inner, -, rfl, -, houter⟩ := h.outermost
  have hr : r ∈ inner ++ [r] := mem_append_right _ mem_cons_self
  obtain ⟨r', hr', hpath, hprogram⟩ := h.program_eq
  obtain rfl := h.eq_of_path_eq htext hr' hr (hpath.trans houter.path.symm)
  refine ⟨r', hr, hpath, houter.parameters, ?_⟩
  have hplaced : Placed p.assembly.program 0 (Assembly.start r'.label).lines.toList := by
    intro n i hi
    rw [hprogram, append_assoc, Nat.zero_add,
      getElem?_append_left (List.getElem?_eq_some_iff.mp hi).1, hi]
  exact hplaced.tail.tail.tail

/-- A function is found by its label. -/
theorem eq_of_text_eq {r' : CompiledFunction} (hr : r ∈ rs)
    (hr' : r' ∈ rs) (htext : r.label.text = r'.label.text) : r = r' := by
  have hdeep : ∀ r ∈ rs, r.label.IsDeep := fun r hr => by
    obtain ⟨depth, hdepth, hle⟩ := h.labelled.2 r hr
    exact FunctionLabel.isDeep_of_nonneg hdepth hle
  exact inj_on_of_nodup_map h.labelled.1 hr hr'
    (FunctionLabel.eq_of_text_eq (hdeep r hr) (hdeep r' hr') htext)

/-- What is called and has no depth is a standard routine, so no label of the program. -/
theorem idxOf?_standard (htext : tree.InText) (hr : r ∈ rs) {x : String} {g : FunctionDecl}
    {scope : Int} (hfind : r.opened.env.find? x = some ⟨.fn g, scope⟩)
    (hdepth : (calleeLabel g scope).depth = none) :
    p.assembly.program.idxOf? (.label (calleeLabel g scope).text) = none := by
  obtain ⟨bound, hintroduces⟩ := h.exists_introduces htext hr hfind
  cases hintroduces with
  | function _ _ _ _ hcallee hlabel =>
    obtain ⟨depth, hsome, -⟩ := h.labelled.2 _ hcallee
    rw [← hlabel, hdepth] at hsome
    cases hsome
  | routine hg =>
    rw [calleeLabel_standard hg, idxOf?_eq_none_iff]
    exact fun hmem => h.standard_notMem_labels hg
      (mem_labels.mpr (mem_filterMap.mpr ⟨_, hmem, rfl⟩))

omit h

/-- A call is lowered with the arguments and the destination that stand in front of it. -/
theorem call_lines (h : Compiles tree p rs) (htext : tree.InText) (htyped : tree.IsTyped)
    (hr : r ∈ rs) {first : Nat} {g : FunctionDecl} {scope : Int} {as : List Argument}
    {destination : Option Nat} (hcalls : r.CallsFrom first g scope as destination)
    (hj : j = first + (as.length + destination.toList.length)) (hfirst : r.first ≤ j) :
    ∃ front tail, r.CallLines p j (calleeLabel g scope) as destination front tail := by
  obtain ⟨p', hcloses⟩ := h.closes r hr
  have hopened := h.settled r hr
  subst hj
  have hquad := hcalls.quad_call
  have hlt := Code.lt_next_of_getElem? hquad
  rw [next_closed] at hlt
  have hbody := hcalls.first_lt hcloses hfirst
  obtain ⟨harguments, hdestination⟩ := hcalls.remembered hcloses hopened
    (h.wellTyped htext htyped hr) hbody (by omega)
  obtain ⟨b, hmark, hrun, hargs, hdest⟩ :=
    exists_of_numbered (hcloses.numbered_run hopened hfirst hquad)
  have hprepared := ((hcloses.prepared hopened hfirst (by omega)).1).congr hargs hdest
  -- a function that is called was declared around the caller
  have hle : ∀ depth, (calleeLabel g scope).depth = some depth →
      depth ≤ r.site.env.scope ∧ (r.site.hops depth).toNat ≤ r.path.length + 1 := by
    intro depth hdepth
    obtain ⟨callee, -, -, hsees⟩ := h.exists_target htext hr hfirst hquad rfl hdepth
    change depth ≤ r.opened.env.scope ∧ (r.opened.env.scope - depth).toNat ≤ _
    change r.Sees callee (r.opened.env.scope - depth) at hsees
    obtain ⟨-, hhops⟩ | ⟨n, -, hhops, hn, -⟩ := hsees <;> omega
  obtain ⟨front, tail, happends, hfront, htail, hlines⟩ := call_lines
    (hcloses.site_sound hopened) ((h.reaching hr).mono (Nat.le_succ _)) hprepared hle hrun
  obtain ⟨l, hl⟩ := h.before_appends hr (hfirst.trans (Nat.le_succ _)) hlt
  have hall := hmark.trans happends
  obtain ⟨hreadable, hdestinations⟩ := hprepared
  rw [hargs, harguments] at hlines hreadable
  rw [hdest, hdestination] at hlines hdestinations
  obtain ⟨hnumbered, hcall⟩ := hlines _ hl.strings
  rw [← append_assoc] at hall
  refine ⟨_, tail, {
    first_lt := by omega
    lt_last := ?_
    arguments := hreadable
    writable := fun n hn => ?_
    placed := hall.placed hl
    next := hall.size_eq
    straight_front := (r.straight_mark _).append hfront
    straight_tail := htail
    numbered := hnumbered
    pushes := fun image base => (hcall image base).1.after_mark r _
    cleans := fun image base => (hcall image base).2 }⟩
  · -- a function does not end with a call
    refine Nat.lt_of_le_of_ne (Nat.le_of_lt_succ hlt) fun hlast => ?_
    rw [hlast, quad_last] at hquad
    cases hquad
  · obtain ⟨_, htemp, hn'⟩ := hdestinations (.temp n) (congrArg (Option.map Operand.temp) hn)
    cases htemp
    exact hn'

end Compiles

end BlockLang
