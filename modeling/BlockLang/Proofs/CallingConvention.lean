import BlockLang.Proofs.Invocation.Call

/-!
# The calling convention

At a call the words of the arguments, the link and the return address are pushed, and the function
finds them above its base. At its end the last lines lead back to the caller, whose stack and base
are as they were, and the result has been stored in its temporary. Only a store through a subscript
that is out of range could spoil this.
-/

namespace BlockLang

open CompiledFunction Emit Instruction Invocation List Lower Option Processor Scene

/-! ### Where runs come to -/

/-- Loading a value takes a line. -/
theorem Lower.load_ne_nil {site : FunctionSite} (o : Operand) (r : Register) :
    Adds (load site o r) fun _ _ lines => lines ≠ [] := by
  have hlast : ∀ {α : Type} {x : Lower α} {f : α → Lower Unit}, Basic x →
      (∀ b, Adds (f b) fun _ _ lines => lines ≠ []) →
      Adds (x >>= f) fun _ _ lines => lines ≠ [] := fun hx hf =>
    adds_bind hx.adds hf fun _ _ _ _ _ _ h => append_ne_nil_of_right_ne_nil _ h
  have hload : Adds (do
      let ty ← typeOf site o
      let m ← memory site o
      if ty = .char then emit (.movzx r (.byte m)) else emit (move r (.dword m)))
      fun _ _ lines => lines ≠ [] :=
    hlast (basic_typeOf o) fun _ => hlast (basic_memory o) fun _ =>
      adds_ite (fun _ => adds_emit fun _ => cons_ne_nil _ _)
        fun _ => adds_emit fun _ => cons_ne_nil _ _
  cases o with
  | int value => exact adds_emit fun _ => cons_ne_nil _ _
  | char byte => exact adds_emit fun _ => cons_ne_nil _ _
  | _ => exact hload

namespace Scene.Located

variable {tree : Decl} {p : Progress} {l : Launch} {rs : List CompiledFunction} {a : Invocation}
  {rest : List Invocation} {σ : Processor} {j : Nat}

theorem function_mem {m : Moment} (h : Located p l rs ⟨a :: rest, m⟩) : a.function ∈ rs := by
  cases h with
  | head entered => exact entered.sound.mem _ mem_cons_self
  | body poised => exact poised.standing.function_mem
  | resume poised => exact poised.standing.function_mem

/-- Where a quad starts the processor is poised. -/
theorem poised_of_line (h : Located p l rs ⟨a :: rest, ⟨a.function.line j, σ⟩⟩)
    (hcompiles : Compiles tree p rs) (hj : a.function.first < j) (hj' : j ≤ a.function.last)
    (hlt : a.function.line j < a.function.line (j + 1)) : a.Poised p l rs 0 rest σ := by
  obtain ⟨q, σ0, -, hpoised, -, hran⟩ | ⟨_, _, _, _, -, hself⟩ :=
    h.cases_of_line hcompiles hj hj' le_rfl hlt
  · rw [Nat.sub_self] at hran
    cases hran
    exact hpoised
  · exact absurd hself (lt_irrefl _)

/-- At the end of a function the processor is poised. -/
theorem poised_of_epilogue (h : Located p l rs ⟨a :: rest, ⟨a.function.epilogue, σ⟩⟩)
    (hcompiles : Compiles tree p rs) (hr : a.function ∈ rs) : a.Poised p l rs 0 rest σ := by
  obtain ⟨p', hcloses⟩ := hcompiles.closes _ hr
  obtain ⟨hnext, hplaced, -⟩ := hcompiles.finish_lines hr
  have hlt : a.function.epilogue < a.function.line (a.function.last + 1) := by
    rw [hnext, length_append, length_append]
    change _ < _ + (_ + 3 + 1)
    unfold epilogue
    omega
  obtain ⟨q, σ0, -, hpoised, -, hran⟩ | ⟨_, _, _, _, hresumes, -⟩ := h.cases_of_line hcompiles
    hcloses.first_lt_last le_rfl (Nat.le_add_right _ _) hlt
  · rw [epilogue, Nat.add_sub_cancel_left, ran_iff hplaced.left.left,
      a.function.runAll?_mark] at hran
    cases hran
    exact hpoised
  · exact absurd hresumes.lt_last (lt_irrefl _)

end Scene.Located

/-! ### The start of a program -/

/-- The start of a program. -/
def Launch.opening (l : Launch) : Scene := ⟨[], ⟨3, l.start⟩⟩

section Opening

variable {tree : Decl} {p : Progress} {l : Launch} {rs : List CompiledFunction} {n : Nat}
  {σ σ' : Processor} {S : Scene}

/-- A program starts at its label `main`. -/
theorem Compiles.idxOf?_main (h : Compiles tree p rs) (htext : tree.InText) (l : Launch) :
    p.assembly.program.idxOf? (.label "main") = some l.opening.moment.line := by
  obtain ⟨r, -, -, -, hplaced⟩ := h.entry_lines htext
  exact idxOf?_label h.nodup_labels hplaced.head

/-- Before a function is called nothing is stored through a subscript. -/
theorem Scene.inRange_of_nil {program : List Instruction}
    (hline : ∀ t, program[n]? = some (.call t) → (program.idxOf? (.label t)).isSome) :
    InRange l program rs ⟨[], ⟨n, σ⟩⟩ S where
  stores _ _ _ _ hstack := by cases hstack
  routines t ht hnone := by
    have hsome := hline t ht
    rw [hnone] at hsome
    cases hsome

/-- In its first lines a function stores nothing through a subscript. -/
theorem Compiles.inRange_start (h : Compiles tree p rs) {c : Invocation} {rest : List Invocation}
    (hr : c.function ∈ rs) {k : Nat} (hk : k < 4) :
    Scene.InRange l p.assembly.program rs
      ⟨c :: rest, ⟨c.function.line c.function.first + k, σ⟩⟩ S where
  stores a rest' i q hstack hline hlt hi hq := by
    cases hstack
    obtain ⟨p', hcloses⟩ := h.closes _ hr
    obtain ⟨hnext, -, -⟩ := h.start_lines hr
    rcases hi.eq_or_lt with rfl | hi
    · cases hcloses.quad_first.symm.trans hq
      exact nofun
    · have hlast := Code.lt_next_of_getElem? hq
      rw [Closes.next_closed] at hlast
      have hmono := h.line_mono hr (Nat.le_add_right c.function.first 1) hi hlast.le
      change c.function.line c.function.first + k = c.function.line i at hline
      omega
  routines t ht := by
    obtain ⟨-, hplaced, -⟩ := h.start_lines hr
    replace hk : k < c.function.startLines.length := hk
    have hline := hplaced k _ (getElem?_eq_getElem hk)
    have hstraight : Straight c.function.startLines := fun x hx => by fin_cases hx <;> trivial
    have hcall := hstraight _ (getElem_mem hk)
    rw [some.inj (hline.symm.trans ht)] at hcall
    exact hcall.elim

/-- One more word can be pushed if there is room. -/
theorem Processor.Piled.exists_push {image : Image} {ws : List Word} (h : σ.Piled image ws σ')
    (w : Word) (hroom : image.floor + 4 * (ws.length + 1) ≤ (σ.registers .esp).number) :
    ∃ σ1, σ'.push? image w = some σ1 ∧ σ.Piled image (w :: ws) σ1 := by
  have hesp := h.esp
  have hpush : σ'.push? image w = some _ := push?_eq_some.mpr ⟨by omega, rfl⟩
  exact ⟨_, hpush, h.push hpush⟩

/-- The first lines of a program can be run if there is room. -/
theorem Launch.exists_runAll?_entryLines (l : Launch) (hroom : l.image.floor + 24 ≤ l.limit) :
    ∃ σ σ', l.start.runAll? l.image Assembly.entryLines = some σ ∧
      σ.push? l.image (l.image.code 11) = some σ' ∧
      (σ'.registers .esp).number + 24 = l.limit := by
  have hpush : l.start.push? l.image (l.start.registers .ebp) = some _ :=
    push?_eq_some.mpr ⟨show l.image.floor + 4 ≤ l.limit by omega, rfl⟩
  have hlimit : (l.start.registers .esp - 4).number = l.limit - 4 :=
    Word.number_sub (n := 4) (show 4 ≤ l.limit by omega)
  -- four registers and the return address are pushed below the base
  let base := ((l.start.set .esp (l.start.registers .esp - 4)).withStore (l.start.store.write .int
    (l.start.registers .esp - 4) (l.start.registers .ebp))).set .ebp l.outer
  have hbase : (base.registers .esp).number = l.limit - 4 := hlimit
  obtain ⟨σ1, hpush1, hpiled⟩ := (Piled.refl l.image base).exists_push (base.registers .ebx)
    (by rw [hbase, length_nil]; omega)
  obtain ⟨σ2, hpush2, hpiled⟩ := hpiled.exists_push (σ1.registers .esi)
    (by rw [hbase, length_singleton]; omega)
  obtain ⟨σ3, hpush3, hpiled⟩ := hpiled.exists_push (σ2.registers .edi)
    (by rw [hbase, length_cons, length_singleton]; omega)
  obtain ⟨σ4, hpush4, hpiled⟩ := hpiled.exists_push (σ3.registers .ebp)
    (by rw [hbase, length_cons, length_cons, length_singleton]; omega)
  obtain ⟨σ5, hpush5, hpiled⟩ := hpiled.exists_push (l.image.code 11)
    (by simp only [hbase, length_cons, length_nil]; omega)
  refine ⟨σ4, σ5, ?_, hpush5, ?_⟩
  · change (l.start.push? l.image (l.start.registers .ebp)).bind _ = some σ4
    rw [hpush, bind_some]
    change (base.push? l.image (base.registers .ebx)).bind _ = some σ4
    rw [hpush1, bind_some]
    change (σ1.push? l.image (σ1.registers .esi)).bind _ = some σ4
    rw [hpush2, bind_some]
    change (σ2.push? l.image (σ2.registers .edi)).bind _ = some σ4
    rw [hpush3, bind_some]
    change (σ3.push? l.image (σ3.registers .ebp)).bind _ = some σ4
    rw [hpush4]
    rfl
  · have hesp := hpiled.esp
    simp only [hbase, length_cons, length_nil] at hesp
    omega

/-- A program that is started with room comes to the first quad of its function. -/
theorem Compiles.opens (h : Compiles tree p rs) (htext : tree.InText) : ∃ main ∈ rs,
    main.closed.code = p.code ∧
      (l.image.floor + 28 + main.frame.size ≤ l.limit → ∃ c σ, c.function = main ∧
        Runs l p.assembly.program rs l.opening ⟨[c], ⟨main.line (main.first + 1), σ⟩⟩ ∧
        (σ.registers .esp).number + 28 + main.frame.size = l.limit) := by
  obtain ⟨main, hmain, hpath, hparameters, hplaced⟩ := h.entry_lines htext
  have hcall : p.assembly.program[10]? = some (.call main.label.text) := hplaced.right.head
  refine ⟨main, hmain, ?_, fun hroom => ?_⟩
  · obtain ⟨r, p1, p2, inner, -, rfl, -, houter⟩ := h.outermost
    have hr : r ∈ inner ++ [r] := mem_append_right _ mem_cons_self
    obtain rfl := h.eq_of_path_eq htext hmain hr (hpath.trans houter.path.symm)
    have hfinal : p.code = p2.code := by rw [houter.final]
    rw [← houter.closes.code, hfinal]
  obtain ⟨σ, σ1, hrun, hpush, hesp⟩ := l.exists_runAll?_entryLines (by omega)
  have hentered : (ofCall main 11 σ1).Entered p l rs [] σ1 :=
    entered_of_start hmain hpath hparameters hrun hpush
  have hfits : l.image.floor + 4 + main.frame.size ≤ (σ1.registers .esp).number := by omega
  obtain ⟨σ2, hstart⟩ := main.exists_runAll?_startLines hfits
  obtain ⟨hpoised, -⟩ := hentered.poised hstart
  obtain ⟨hnext, hlines, hentry⟩ := h.start_lines hmain
  refine ⟨ofCall main 11 σ1, σ2, rfl, ?_, ?_⟩
  · have hfirst : Scene.Leads (fun S S' => Scene.Step l.image p.assembly.program rs S S' ∧
        Scene.InRange l p.assembly.program rs S S') _ l.opening _ :=
      leads_of_runAll? hrun fun k x _ _ hx hexec =>
        ⟨(next_of_exec? (hplaced.left k x hx) hexec).step, inRange_of_nil fun t ht => by
          cases (hplaced.left k x hx).symm.trans ht
          exact (isStraight_of_exec? hexec).elim⟩
    have hlast : Scene.Leads (fun S S' => Scene.Step l.image p.assembly.program rs S S' ∧
        Scene.InRange l p.assembly.program rs S S') _
        ⟨[ofCall main 11 σ1], ⟨main.line main.first, σ1⟩⟩ _ :=
      leads_of_runAll? hstart fun k x _ _ hx hexec =>
        ⟨(next_of_exec? (hlines k x hx) hexec).step, h.inRange_start (c := ofCall main 11 σ1)
          hmain (List.getElem?_eq_some_iff.mp hx).1⟩
    rw [hnext]
    refine (hfirst.trans (.cons ⟨(next_of_enter h hmain hcall hpush).step, ?_⟩
      hlast)).reflTransGen
    refine inRange_of_nil fun t ht => ?_
    cases hcall.symm.trans ht
    rw [hentry]
    rfl
  · have htop := hpoised.esp_eq
    obtain ⟨hframed, -⟩ := hpoised.standing.intact
    have hfloor : l.image.floor + main.frame.size ≤ _ := hframed.room
    have hheight : _ + 12 + 4 * _ = l.limit - 16 := hframed.height
    have harity : (ofCall main 11 σ1).arity = 0 := congrArg List.length hparameters
    change _ = (ofCall main 11 σ1).base.number - main.frame.size at htop
    omega

end Opening

/-- The value of a return takes a line. -/
theorem Compiles.line_lt_of_result {tree : Decl} {p : Progress} {rs : List CompiledFunction}
    {r : CompiledFunction} {i : Nat} {x : Operand} (h : Compiles tree p rs) (hr : r ∈ rs)
    (hi : r.first ≤ i) (hq : r.closed.code.quads[i]? = some (assignQuad x .returnValue)) :
    r.line i < r.line (i + 1) := by
  have hquad : quad r.site (assignQuad x .returnValue) =
      (load r.site x .eax >>= fun _ => pure ()) := rfl
  have hload : Adds (quad r.site (assignQuad x .returnValue))
      fun _ _ lines => lines ≠ [] := by
    rw [hquad]
    exact adds_bind (load_ne_nil x .eax) (fun _ => (basic_pure ()).straight)
      fun _ _ _ _ _ h _ => append_ne_nil_of_left_ne_nil h _
  obtain ⟨lines, hlines, hnext, -⟩ := h.marked_lines hr hi hq hload
  have hpos := length_pos_of_ne_nil hlines
  rw [hnext, length_append]
  omega

/-- The function on top of the stack leads back to the caller when it comes to its end, on
whatever way, and the result has been stored then. What it returns by a return with a value
is that value. -/
structure Invocation.Regains (p : Progress) (l : Launch) (rs : List CompiledFunction)
    (σ : Processor) (a : Invocation) (rest : List Invocation) (j : Nat) (destination : Option Nat)
    (result : Ty) (b : Invocation) (σ1 : Processor) : Prop where
  ends : ∀ σ2, Scene.Runs l p.assembly.program rs
      ⟨b :: a :: rest, ⟨b.function.line (b.function.first + 1), σ1⟩⟩
      ⟨b :: a :: rest, ⟨b.function.epilogue, σ2⟩⟩ →
    ∃ n σ3, Scene.Leads (Scene.Next l.image p.assembly.program rs) n
        ⟨b :: a :: rest, ⟨b.function.epilogue, σ2⟩⟩ ⟨a :: rest, ⟨a.function.line (j + 1), σ3⟩⟩ ∧
      σ.Balanced a.function.frame destination result σ2.store (σ2.registers .eax) σ3
  returns : ∀ i x σ2, b.function.first ≤ i →
    b.function.closed.code.quads[i]? = some (assignQuad x .returnValue) →
    Scene.Runs l p.assembly.program rs
      ⟨b :: a :: rest, ⟨b.function.line (b.function.first + 1), σ1⟩⟩
      ⟨b :: a :: rest, ⟨b.function.line i, σ2⟩⟩ →
    ∃ w n σ3, (b.function.layout rs).value? (σ2.store.frames b.base) σ2.store x = some w ∧
      Scene.Leads (Scene.Next l.image p.assembly.program rs) n
        ⟨b :: a :: rest, ⟨b.function.line i, σ2⟩⟩ ⟨a :: rest, ⟨a.function.line (j + 1), σ3⟩⟩ ∧
      σ.Balanced a.function.frame destination result σ2.store w σ3

section Calls

variable {tree : Decl} {p : Progress} {l : Launch} {rs : List CompiledFunction}
  {a b : Invocation} {rest : List Invocation} {j : Nat} {g : FunctionDecl} {scope depth : Int}
  {as : List Argument} {destination : Option Nat} {front tail : List Instruction}
  {σ σ1 : Processor}

/-- A function that has been called gives control back. -/
theorem Invocation.Poised.regains (h : a.Poised p l rs 0 rest σ) (hcompiles : Compiles tree p rs)
    (htext : tree.InText) (htyped : tree.IsTyped) (hsuits : l.Suits p.assembly.program)
    (hcall : a.function.CallsAt p j g scope as destination front tail)
    (hdepth : (calleeLabel g scope).depth = some depth)
    (hb : b.Poised p l rs 0 (a :: rest) σ1) (hback : b.back = a.function.line j + front.length + 1)
    (harity : as.length = b.arity) :
    a.Regains p l rs σ rest j destination g.result b σ1 := by
  have hr := hb.standing.function_mem
  obtain ⟨p', hcloses⟩ := hcompiles.closes _ hr
  have hfirst := hb.located hcompiles (Nat.lt_succ_self _) hcloses.first_lt_last
  constructor
  · intro σ2 hruns
    have hlocated := hruns.located hcompiles htext htyped hsuits hfirst
    exact ⟨_, h.leaves hcompiles htext hcall hsuits hdepth
      (hlocated.poised_of_epilogue hcompiles hr) hback harity⟩
  · intro i x σ2 hi hq hruns
    have hlocated := hruns.located hcompiles htext htyped hsuits hfirst
    obtain ⟨-, hstart⟩ | ⟨-, hfinish⟩ | ⟨hlt, hlt', -⟩ := hcloses.quad_cases hi hq
    · cases hstart
    · cases hfinish
    have hpoised := hlocated.poised_of_line hcompiles hlt hlt'.le
      (hcompiles.line_lt_of_result hr hi hq)
    obtain ⟨w, n, σ3, hw, hleads, hpoised3, hstore, heax⟩ :=
      hpoised.returns_value hcompiles htext hi hq
    obtain ⟨σ4, hleads4, hbalanced⟩ :=
      h.leaves hcompiles htext hcall hsuits hdepth hpoised3 hback harity
    rw [hstore, heax] at hbalanced
    exact ⟨w, _, σ4, hw, hleads.trans hleads4, hbalanced⟩

end Calls

/-- The calling convention. When the run of a program comes to a call of a function and there
is room for its words and its frame, the lines of the call and the first ones of the function
lead into it, and the function finds at its base what it expects. When it comes to its end the
lines from there on lead back, and the stack and the base of the caller are as they were before
anything was pushed. The result has been stored with its type in its temporary. A standard
routine that keeps to the convention finds its arguments and no link, and the stack is
balanced too. -/
theorem calling_convention {source : String} {c : Compilation} (h : (compile source).1 = .ok c) :
    ∃ lexemes tree p rs, Token.scan source = .ok lexemes ∧ (Decl.read lexemes).1 = .ok tree ∧
      Emit.program (some tree) {} = .ok () p ∧ c = p.compilation tree ∧ Compiles tree p rs ∧
      ∀ l : Launch, l.Suits p.assembly.program →
        p.assembly.program.idxOf? (.label "main") = some l.opening.moment.line ∧
        ∀ (a : Invocation) rest j q σ,
          Scene.Runs l p.assembly.program rs l.opening ⟨a :: rest, ⟨a.function.line j, σ⟩⟩ →
          a.function.first ≤ j → a.function.closed.code.quads[j]? = some q → q.op = .call →
          ∃ g scope as destination front tail,
            a.function.CallsAt p j g scope as destination front tail ∧
            (∀ depth, (Emit.calleeLabel g scope).depth = some depth →
              ∃ callee ∈ rs, callee.label = Emit.calleeLabel g scope ∧
                (l.image.floor + 4 * (as.length + 3) + callee.frame.size ≤
                    (σ.registers .esp).number →
                  ∃ b σ₁, b.function = callee ∧ b.back = a.function.line j + front.length + 1 ∧
                    Scene.Leads (Scene.Next l.image p.assembly.program rs) (front.length + 5)
                      ⟨a :: rest, ⟨a.function.line j, σ⟩⟩
                      ⟨b :: a :: rest, ⟨callee.line (callee.first + 1), σ₁⟩⟩ ∧
                    a.Receives p l rs σ rest as (a.function.site.hops depth).toNat b σ₁ ∧
                    a.Regains p l rs σ rest j destination g.result b σ₁)) ∧
            ((Emit.calleeLabel g scope).depth = none →
              l.image.floor + 4 * (as.length + 1) ≤ (σ.registers .esp).number →
              a.Delegates p l rs σ rest j (Emit.calleeLabel g scope).text as destination g.result
                front tail) := by
  obtain ⟨lexemes, tree, p, hscan, hread, hrun, heq⟩ := emitted_of_compile h
  obtain ⟨rs, hcompiles⟩ := Emit.program_compiles hrun
  have htext := Decl.inText_of_read hscan hread
  have htyped := Decl.isTyped_of_read hread
  refine ⟨lexemes, tree, p, rs, hscan, hread, hrun, heq, hcompiles, fun l hsuits =>
    ⟨hcompiles.idxOf?_main htext l, fun a rest j q σ hruns hj hq hop => ?_⟩⟩
  have hlocated := hruns.located hcompiles htext htyped hsuits (.entry (k := 0) (by decide) rfl)
  have hr := hlocated.function_mem
  obtain ⟨g, scope, as, destination, front, tail, hcall⟩ :=
    hcompiles.exists_callsAt htext htyped hr hj hq hop
  have hlt : a.function.line j < a.function.line (j + 1) := by
    rw [hcall.next_eq]
    omega
  have hpoised := hlocated.poised_of_line hcompiles hcall.first_lt hcall.lt_last.le hlt
  refine ⟨g, scope, as, destination, front, tail, hcall, fun depth hdepth => ?_, fun hdepth =>
    hpoised.delegates hcompiles htext hcall htyped hsuits hdepth⟩
  obtain ⟨callee, hcallee, hlabel, -⟩ := hcompiles.exists_target htext hr hj hcall.quad rfl hdepth
  refine ⟨callee, hcallee, hlabel, fun hroom => ?_⟩
  obtain ⟨b, σ₁, rfl, hback, hleads, hb, hreceives⟩ :=
    hpoised.enters hcompiles htext hcall hcallee hlabel (hlabel ▸ hdepth) htyped hroom
  exact ⟨b, σ₁, rfl, hback, hleads, hreceives, hpoised.regains hcompiles htext htyped hsuits hcall
    hdepth hb hback hreceives.length⟩

/-- A program that passes a value and a variable to a function and stores its result. -/
def passing : String :=
  "function main(): nothing;
var n: int;
function add(c: char; ref total: int): int;
begin return total + 1; end
begin n := add('x', n); end"

def passingQuads : List Quad :=
  [.start ⟨"add", some 1, 0⟩, arithQuad .add (.name "total") (.int 1) 0,
    assignQuad (.temp 0) .returnValue, returnQuad, .finish ⟨"add", some 1, 0⟩,
    .start ⟨"main", some 0, 0⟩, argumentQuad ⟨.char 120, false⟩,
    argumentQuad ⟨.name "n", true⟩, destinationQuad 1,
    callQuadOf ⟨"add", some 1, 0⟩, assignQuad (.temp 1) (.name "n"),
    .finish ⟨"main", some 0, 0⟩]

def Instruction.isSmall : Instruction → Bool
  | .sub .esp (.immediate n) => n ≤ 8
  | _ => true

/-- A stack of a page, and lines with their numbers as addresses. -/
def Launch.page : Launch :=
  ⟨⟨fun _ => 0, .ofNat, 0, fun _ _ _ => False⟩, Processor.blank.set .esp 4096⟩

theorem calling_convention_passing : ∃ c, (compile passing).1 = .ok c ∧
    ∃ tree p rs, Compiles tree p rs ∧ c = p.compilation tree ∧
      Launch.page.Suits p.assembly.program ∧
      ∃ (a : Invocation) (σ : Processor), Scene.Runs .page p.assembly.program rs
          (Launch.opening .page) ⟨[a], ⟨a.function.line 9, σ⟩⟩ ∧
        ∃ g scope as destination front tail,
          a.function.CallsAt p 9 g scope as destination front tail ∧
          ∃ callee ∈ rs, callee.label = ⟨"add", some 1, 0⟩ ∧ ∃ b σ₁, b.function = callee ∧
            Scene.Leads (Scene.Next Launch.page.image p.assembly.program rs) (front.length + 5)
              ⟨[a], ⟨a.function.line 9, σ⟩⟩
              ⟨[b, a], ⟨callee.line (callee.first + 1), σ₁⟩⟩ ∧
            a.Receives p .page rs σ [] as (a.function.site.hops 1).toNat b σ₁ ∧
            a.Regains p .page rs σ [] 9 destination g.result b σ₁ := by
  have hknown : (treeOf? passing).any (fun tree => (progress? tree).any fun p =>
      p.code.quads.toList = passingQuads ∧ p.code.targets = [] ∧
        p.assembly.program.all Instruction.isSmall ∧ p.assembly.program.length ≤ 51) = true := by
    decide +kernel
  obtain ⟨c, hc⟩ := exists_compilation hknown
  obtain ⟨lexemes, tree, p, rs, hscan, hread, hrun, heq, hcompiles, hconvention⟩ :=
    calling_convention hc
  simp only [treeOf?_eq hscan hread, progress?_eq hrun, Option.any_some, decide_eq_true_eq]
    at hknown
  obtain ⟨hquads, htargets, hsmall, hlength⟩ := hknown
  have htext := Decl.inText_of_read hscan hread
  have hsuits : Launch.page.Suits p.assembly.program := by
    refine ⟨fun n t hline _ m hm heq => ?_, fun _ _ _ hroutine => hroutine.elim⟩
    have hn := (List.getElem?_eq_some_iff.mp hline).1
    have hnumber : ∀ k ≤ p.assembly.program.length, Word.number (.ofNat k) = k :=
      fun k hk => Nat.mod_eq_of_lt (by omega)
    rw [← hnumber (n + 1) hn, ← hnumber m hm]
    exact congrArg Word.number heq
  have hframe : ∀ r ∈ rs, r.frame.size ≤ 8 := by
    intro r hr
    obtain ⟨-, hplaced, -⟩ := hcompiles.start_lines hr
    have hsub := all_eq_true.mp hsmall _ (mem_of_getElem? (hplaced 3 _ rfl))
    exact Int.ofNat_le.mp (of_decide_eq_true hsub)
  obtain ⟨main, hmain, hcode, hopens⟩ := hcompiles.opens (l := .page) htext
  obtain ⟨p', hcloses⟩ := hcompiles.closes main hmain
  have hget : ∀ i : Nat, main.closed.code.quads[i]? = passingQuads[i]? := by
    intro i
    rw [hcode, ← hquads, Array.getElem?_toList]
  -- the function of the program has the last seven quads
  have hlast : main.last = 11 := by
    have hnext : main.closed.code.next = main.last + 1 := CompiledFunction.Closes.next_closed _
    rw [hcode, Code.next, ← Array.length_toList, hquads] at hnext
    exact (Nat.succ.inj hnext).symm
  have hfirst : main.first = 5 := by
    have hunit : ∀ n < 11, (passingQuads[n]?.map Quad.op) = some .unit → n = 0 ∨ n = 5 := by decide
    have hlt := hcloses.first_lt_last
    refine (hunit _ (by omega) ?_).resolve_left fun hzero => ?_
    · rw [← hget, hcloses.quad_first]
      rfl
    · obtain ⟨hfour, -⟩ | ⟨hfour, -⟩ | ⟨-, -, -, hend⟩ :=
        hcloses.quad_cases (by omega) (hget 4)
      · omega
      · omega
      · exact hend rfl
  -- those of the arguments have no lines
  have hline : ∀ (i : Nat) (q : Quad), 5 ≤ i → passingQuads[i]? = some q → q.op = .par →
      main.line (i + 1) = main.line i := by
    intro i q hi hq hop
    obtain ⟨_, rfl, hnext, -⟩ := hcompiles.marked_lines hmain (by omega) ((hget i).trans hq)
      (Lower.par_adds hop)
    have hmark : main.mark i = [] := by
      rw [CompiledFunction.mark, Code.isTarget, hcode, htargets]
      rfl
    rw [hnext, hmark]
    rfl
  have hsame : main.line (main.first + 1) = main.line 9 := by
    rw [hfirst, hline 8 _ (by decide) rfl rfl, hline 7 _ (by decide) rfl rfl,
      hline 6 _ (by decide) rfl rfl]
  have hlimit : Launch.page.limit = 4096 := by decide
  have hfloor : Launch.page.image.floor = 0 := rfl
  have hsize := hframe main hmain
  obtain ⟨a, σ, rfl, hruns, hesp⟩ := hopens (by omega)
  rw [hsame] at hruns
  obtain ⟨g, scope, as, destination, front, tail, hcall, hfunction, -⟩ :=
    (hconvention .page hsuits).2 a [] 9 _ σ hruns (by omega) (hget 9) rfl
  have hlabel : Emit.calleeLabel g scope = ⟨"add", some 1, 0⟩ := by
    have houtput := congrArg Quad.output (Option.some.inj (hcall.quad.symm.trans (hget 9)))
    exact Operand.function.inj (Option.some.inj houtput)
  obtain ⟨callee, hcallee, hsome, henters⟩ := hfunction 1 (by rw [hlabel])
  obtain ⟨first, -, hj⟩ := hcall.calls
  have hsize' := hframe callee hcallee
  obtain ⟨b, σ₁, hb, -, hleads, hreceives, hregains⟩ := henters (by omega)
  exact ⟨c, hc, tree, p, rs, hcompiles, heq, hsuits, a, σ, hruns, g, scope, as, destination, front,
    tail, hcall, callee, hcallee, hsome.trans hlabel, b, σ₁, hb, hleads, hreceives, hregains⟩

end BlockLang
