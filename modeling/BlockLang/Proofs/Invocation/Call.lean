import BlockLang.Proofs.Invocation.Run
import BlockLang.Proofs.SlotAgreement

/-!
# From a call to the return

A call pushes its words, and the first lines of the function make a frame of them. From the end of
the function its last lines and those after the call lead back, with the stack and the base as they
were and the result stored.
-/

namespace BlockLang

open Emit Instruction Invocation List Lower Option Processor Word

variable {r : CompiledFunction} {ws : List Word} {i target words : Nat} {t : String}

/-! ### Lines one after the other -/

namespace Scene

/-- So many steps lead from a scene to another one. -/
inductive Leads (R : Scene → Scene → Prop) : Nat → Scene → Scene → Prop
  | refl (S : Scene) : Leads R 0 S S
  | cons {n : Nat} {S S1 S2 : Scene} (first : R S S1) (rest : Leads R n S1 S2) :
      Leads R (n + 1) S S2

variable {R : Scene → Scene → Prop} {n k start : Nat} {S S1 S2 : Scene} {image : Image}
  {program lines : List Instruction} {rs : List CompiledFunction} {stack : List Invocation}
  {σ σ' : Processor} {x : Instruction}

theorem Leads.trans (h : Leads R n S S1) (h' : Leads R k S1 S2) : Leads R (n + k) S S2 := by
  induction h with
  | refl => rwa [Nat.zero_add]
  | cons first _ ih =>
    rw [Nat.succ_add]
    exact .cons first (ih h')

theorem Leads.single (h : R S S1) : Leads R 1 S S1 := .cons h (.refl S1)

theorem Leads.reflTransGen (h : Leads R n S S1) : Relation.ReflTransGen R S S1 := by
  induction h with
  | refl => exact .refl
  | cons first _ ih => exact .head first ih

/-- Lines that are run one after the other lead past them. -/
theorem leads_of_runAll? (hrun : σ.runAll? image lines = some σ')
    (hR : ∀ k x σ1 σ2, lines[k]? = some x → x.exec? image σ1 = some σ2 →
      R ⟨stack, ⟨start + k, σ1⟩⟩ ⟨stack, ⟨start + k + 1, σ2⟩⟩) :
    Leads R lines.length ⟨stack, ⟨start, σ⟩⟩ ⟨stack, ⟨start + lines.length, σ'⟩⟩ := by
  induction lines generalizing start σ with
  | nil =>
    cases hrun
    exact .refl _
  | cons x lines ih =>
    obtain ⟨σ1, hexec, hrest⟩ := bind_eq_some_iff.mp hrun
    rw [length_cons, ← Nat.add_assoc, Nat.add_right_comm]
    refine .cons (hR 0 x σ σ1 rfl hexec) (ih hrest fun k y σ1 σ2 hy hexec => ?_)
    have hstep := hR (k + 1) y σ1 σ2 hy hexec
    rw [show start + (k + 1) = start + 1 + k by omega] at hstep
    exact hstep

/-- A line leads to this scene and to no other. -/
structure Next (image : Image) (program : List Instruction) (rs : List CompiledFunction)
    (S S' : Scene) : Prop where
  step : Step image program rs S S'
  unique : ∀ S'', Step image program rs S S'' → S'' = S'

/-- What can be executed leads to the next line. -/
theorem next_of_exec? (hline : program[n]? = some x) (hexec : x.exec? image σ = some σ') :
    Next image program rs ⟨stack, ⟨n, σ⟩⟩ ⟨stack, ⟨n + 1, σ'⟩⟩ := by
  have hstraight := isStraight_of_exec? hexec
  have hret : x ≠ .ret := fun heq => by rw [heq] at hstraight; exact hstraight
  have hcall : ∀ t, x ≠ .call t := fun t heq => by rw [heq] at hstraight; exact hstraight
  constructor
  · refine .inside (.next hline hexec) (fun hline' => ?_) fun t hline' => ?_
    · exact hret (some.inj (hline.symm.trans hline'))
    · exact absurd (some.inj (hline.symm.trans hline')) (hcall t)
  · intro S'' h
    have hstack : S''.stack = stack := h.stack_eq hline hcall hret
    obtain ⟨σ2, hexec', hmoment⟩ := h.moment.of_straight hline hstraight
    cases hexec.symm.trans hexec'
    exact Scene.ext hstack hmoment

theorem next_of_jmp (hline : program[n]? = some (.jmp t))
    (htarget : program.idxOf? (.label t) = some target) :
    Next image program rs ⟨stack, ⟨n, σ⟩⟩ ⟨stack, ⟨target, σ⟩⟩ := by
  constructor
  · refine .inside (.jmp hline htarget) (fun hret => ?_) fun t hcall => ?_
    · cases hline.symm.trans hret
    · cases hline.symm.trans hcall
  · intro S'' h
    obtain ⟨target', htarget', rfl⟩ := h.of_jmp hline
    cases htarget.symm.trans htarget'
    rfl

/-- A call of a function leads to its first line. -/
theorem next_of_enter {tree : Decl} {p : Progress} {callee : CompiledFunction}
    (hcompiles : Compiles tree p rs) (hcallee : callee ∈ rs)
    (hline : p.assembly.program[n]? = some (.call callee.label.text))
    (hpush : σ.push? image (image.code (n + 1)) = some σ') :
    Next image p.assembly.program rs ⟨stack, ⟨n, σ⟩⟩
      ⟨ofCall callee (n + 1) σ' :: stack, ⟨callee.line callee.first, σ'⟩⟩ := by
  obtain ⟨-, -, hentry⟩ := hcompiles.start_lines hcallee
  refine ⟨.enter (.call hline hentry hpush) hcallee hline, fun S'' h => ?_⟩
  obtain ⟨σ'', hpush', rfl⟩ := h.of_enter hcompiles hcallee hline
  cases hpush.symm.trans hpush'
  rfl

/-- A return leads to the line whose address is on top of the stack. -/
theorem next_of_ret {a : Invocation} (hline : program[n]? = some .ret)
    (hread : σ.store.read .int (σ.registers .esp) = image.code target)
    (hle : target ≤ program.length)
    (hunique : ∀ m ≤ program.length, image.code m = image.code target → m = target) :
    Next image program rs ⟨a :: stack, ⟨n, σ⟩⟩
      ⟨stack, ⟨target, σ.set .esp (σ.registers .esp + 4)⟩⟩ := by
  refine ⟨.leave (.ret hline hread hle) hline, fun S'' h => ?_⟩
  obtain ⟨_, _, target', hstack, hle', hread', rfl⟩ := h.of_ret hline
  cases hstack
  rw [hunique target' hle' (hread'.symm.trans hread)]

/-- A standard routine leads to the line after its call. -/
theorem step_routine_iff {σ1 : Processor} (hline : program[n]? = some (.call t))
    (hnone : program.idxOf? (.label t) = none)
    (hrs : ∀ r ∈ rs, (program.idxOf? (.label r.label.text)).isSome)
    (hpush : σ.push? image (image.code (n + 1)) = some σ1) :
    Step image program rs ⟨stack, ⟨n, σ⟩⟩ S ↔
      ∃ σ2, image.routine t σ1 σ2 ∧ S = ⟨stack, ⟨n + 1, σ2⟩⟩ := by
  constructor
  · intro h
    obtain ⟨σ1', σ2, hpush', hroutine, rfl⟩ := h.of_routine hline hnone hrs
    cases hpush.symm.trans hpush'
    exact ⟨σ2, hroutine, rfl⟩
  · rintro ⟨σ2, hroutine, rfl⟩
    refine .inside (.routine hline hnone hpush hroutine) (fun hret => ?_) fun t hcall => ?_
    · cases hline.symm.trans hret
    · cases hline.symm.trans hcall
      exact hnone

theorem next_of_runAll? (hplaced : Placed program start lines)
    (hrun : σ.runAll? image lines = some σ') :
    Leads (Next image program rs) lines.length ⟨stack, ⟨start, σ⟩⟩
      ⟨stack, ⟨start + lines.length, σ'⟩⟩ :=
  leads_of_runAll? hrun fun k x _ _ hx hexec => next_of_exec? (hplaced k x hx) hexec

end Scene

/-! ### The cells of parameters -/

/-- The cell of an argument, from the base of the running function. -/
def Frame.argument (i : Nat) : Memory := ⟨.ebp, argumentOffset i⟩

theorem Processor.address_argument (σ : Processor) (i : Nat) :
    σ.address (Frame.argument i) = σ.registers .ebp + .ofNat (12 + 4 * i) := by
  rw [Frame.argument, address_mk, ofInt_argumentOffset]

/-- The place of a parameter of the function itself. For one that is passed by reference it is
reached through its cell. -/
def Lower.parameter (i : Nat) (byReference : Bool) : Lower Memory :=
  if byReference then do
    emit (move .esi (.dword (Frame.argument i)))
    return ⟨.esi, 0⟩
  else return Frame.argument i

theorem Lower.named_parameter (site : FunctionSite) {x : String} {q : Parameter}
    (hx : site.env.find? x = some ⟨.param q, site.env.scope⟩)
    (hi : (site.env.parameters site.env.scope).findIdx? (fun q => q.name = x) = some i) :
    named site x = parameter i q.byReference := by
  have hhops : site.hops site.env.scope = 0 := Int.sub_self _
  unfold named
  rw [hx]
  dsimp only
  rw [if_pos hhops, hi]
  rfl

/-- A function finds its parameters in the cells of the arguments. -/
theorem Compiles.named_parameter {tree : Decl} {p : Progress} {rs : List CompiledFunction}
    {r : CompiledFunction} (h : Compiles tree p rs) (htext : tree.InText) (hr : r ∈ rs) {i : Nat}
    {q : Parameter} (hq : r.function.parameters[i]? = some q) :
    named r.site q.name = parameter i q.byReference := by
  obtain ⟨hparameters, hfind⟩ := h.find?_parameter htext hr
  refine Lower.named_parameter r.site (hfind q (mem_of_getElem? hq)) ?_
  change (r.opened.env.parameters r.opened.env.scope).findIdx? _ = some i
  rw [hparameters]
  exact h.findIdx?_parameter htext hr hq

/-- The first lines of a function can be run if there is room. -/
theorem CompiledFunction.exists_runAll?_startLines (r : CompiledFunction) {image : Image}
    {σ : Processor} (hroom : image.floor + 4 + r.frame.size ≤ (σ.registers .esp).number) :
    ∃ σ', σ.runAll? image r.startLines = some σ' := by
  have hbase : (σ.registers .esp - 4).number = (σ.registers .esp).number - 4 :=
    number_sub (n := 4) (by omega)
  exact ⟨_, r.runAll?_startLines.mpr ⟨by omega, by omega, rfl⟩⟩

/-- The line of the label at the end of a function. -/
def CompiledFunction.epilogue (r : CompiledFunction) : Nat := r.line r.last + (r.mark r.last).length

/-- The stack and the base are as they were before a call. Memory is as it was left, with the
result in the cell of its temporary, if it has one. -/
structure Processor.Balanced (σ : Processor) (frame : Frame) (destination : Option Nat)
    (result : Ty) (s : Store) (w : Word) (σ' : Processor) : Prop where
  esp : σ'.registers .esp = σ.registers .esp
  ebp : σ'.registers .ebp = σ.registers .ebp
  unused : destination = none → σ'.store = s
  stored : ∀ n, destination = some n → ∃ offset, frame.tempOffset? n = some offset ∧
    σ'.store = s.write result (σ.registers .ebp + .ofInt offset) w

/-! ### What is passed -/

namespace Invocation

variable {tree : Decl} {p : Progress} {l : Launch} {rs : List CompiledFunction}
  {a c : Invocation} {rest stack : List Invocation} {s : Store} {σ σ1 σ2 : Processor}
  {x : Argument} {w : Word}

/-- A value that is passed is not read through a subscript that is out of range. -/
def Fetches (l : Launch) (rs : List CompiledFunction) (s : Store) (a : Invocation)
    (rest : List Invocation) (x : Argument) : Prop :=
  x.byReference = false → Subscripted (a :: rest) x.value → ∀ ty addr,
    (a.function.layout rs).place? (s.frames a.base) s x.value = some (ty, addr) →
      addr.bytes ty.width ⊆ l.Data (a :: rest)

/-- A word was passed for an argument: its value, or its address. It was found while words were
pushed below all frames, which does not matter unless it is read from there. -/
structure Passed (p : Progress) (l : Launch) (rs : List CompiledFunction) (σ : Processor)
    (a : Invocation) (rest : List Invocation) (x : Argument) (w : Word) : Prop where
  found : ∃ s, Set.EqOn s σ.store (l.image.Fixed (σ.registers .esp).number) ∧
    x.word? (a.function.layout rs) (σ.store.frames a.base) l.image p.assembly.strings.toList s =
      some w
  unchanged : a.Fetches l rs σ.store rest x →
    x.word? (a.function.layout rs) (σ.store.frames a.base) l.image p.assembly.strings.toList
      σ.store = some w

/-- What a function finds at its base when it has been called: the base of the caller, the
line to return to, the link, and for each parameter the word that was passed for it, in the
cell in which the function looks for the parameter. -/
structure Receives (p : Progress) (l : Launch) (rs : List CompiledFunction) (σ : Processor)
    (a : Invocation) (rest : List Invocation) (as : List Argument) (hops : Nat) (c : Invocation)
    (σ' : Processor) : Prop where
  ebp : σ'.registers .ebp = c.base
  caller : σ'.store.read .int c.base = σ.registers .ebp
  back : σ'.store.read .int (c.base + 4) = l.image.code c.back
  link : σ'.store.read .int (c.base + 8) = σ.store.frames (σ.registers .ebp) hops
  length : as.length = c.function.function.parameters.length
  argument : ∀ i q, c.function.function.parameters[i]? = some q →
    ∃ x, as[i]? = some x ∧ x.byReference = q.byReference ∧
      a.Passed p l rs σ rest x (σ'.store.read .int (c.base + .ofNat (12 + 4 * i)))
  cell : ∀ i q, c.function.function.parameters[i]? = some q →
    named c.function.site q.name = parameter i q.byReference ∧
      σ'.address (Frame.argument i) = c.base + .ofNat (12 + 4 * i)

/-- Data lies below the stack, above it or in frames. -/
theorem Intact.data_subset_fixed (h : Intact l s stack) :
    l.Data stack ⊆ l.image.Fixed (bottom l stack) := by
  rintro b (hfloor | hlimit | ⟨c, hc, howns⟩)
  · exact .inl hfloor
  · exact .inr (h.bottom_le_top.trans ((Nat.sub_le _ _).trans hlimit))
  · exact .inr (h.bottom_le hc howns.1)

/-- A standard routine is called: the words of its arguments are pushed, without a link, and
the return address on top of them. What the routine does is all that can happen then, and when
it has returned, the stack is as it was and its result is stored. -/
def Delegates (p : Progress) (l : Launch) (rs : List CompiledFunction) (σ : Processor)
    (a : Invocation) (rest : List Invocation) (j : Nat) (name : String) (as : List Argument)
    (destination : Option Nat) (result : Ty) (front tail : List Instruction) : Prop :=
  ∃ σ0 σ1 ws, Scene.Leads (Scene.Next l.image p.assembly.program rs) front.length
      ⟨a :: rest, ⟨a.function.line j, σ⟩⟩ ⟨a :: rest, ⟨a.function.line j + front.length, σ0⟩⟩ ∧
    σ.Piled l.image (l.image.code (a.function.line j + front.length + 1) :: ws) σ1 ∧
    List.Forall₂ (a.Passed p l rs σ rest) as ws ∧
    (∀ S, Scene.Step l.image p.assembly.program rs
        ⟨a :: rest, ⟨a.function.line j + front.length, σ0⟩⟩ S ↔
      ∃ σ2, l.image.routine name σ1 σ2 ∧
        S = ⟨a :: rest, ⟨a.function.line j + front.length + 1, σ2⟩⟩) ∧
    ∀ σ2, l.image.routine name σ1 σ2 → ∃ σ3,
      Scene.Leads (Scene.Next l.image p.assembly.program rs) tail.length
        ⟨a :: rest, ⟨a.function.line j + front.length + 1, σ2⟩⟩
        ⟨a :: rest, ⟨a.function.line (j + 1), σ3⟩⟩ ∧
      σ.Balanced a.function.frame destination result σ2.store (σ2.registers .eax) σ3

section Calls

variable {j : Nat} {g : FunctionDecl} {scope depth : Int} {as : List Argument}
  {destination : Option Nat} {front tail : List Instruction} {callee : CompiledFunction}

variable (h : a.Poised p l rs 0 rest σ) (hcompiles : Compiles tree p rs) (htext : tree.InText)
  (hcall : a.function.CallsAt p j g scope as destination front tail)

include h hcompiles htext hcall

/-- What is found while words are pushed is passed. -/
theorem Poised.passed (htyped : tree.IsTyped)
    (hws : List.Forall₂ (a.Finds p l rs σ rest) as ws) :
    List.Forall₂ (a.Passed p l rs σ rest) as ws := by
  have henv := hcompiles.typed_env htext htyped h.standing.function_mem
  refine forall₂_iff_get.mpr ⟨hws.length_eq, fun i hi hi' => ?_⟩
  obtain ⟨s, hs, hw⟩ := (forall₂_iff_get.mp hws).2 i hi hi'
  have hargument := hcall.arguments _ (get_mem as ⟨i, hi⟩)
  refine ⟨⟨s, by rwa [h.esp_eq], hw⟩, fun hfetches => ?_⟩
  rw [← h.standing.word?_congr hcompiles htext hs hargument, hw]
  -- a value that is found by its name alone lies in a frame
  intro hvalue ty addr hplace
  refine Set.Subset.trans ?_ h.standing.intact.data_subset_fixed
  rw [hvalue] at hargument
  by_cases hsubscripted : Subscripted (a :: rest) (as.get ⟨i, hi⟩).value
  · exact hfetches hvalue hsubscripted ty addr hplace
  · exact h.standing.data_of_place hcompiles htext henv hargument hsubscripted hplace

/-- The words of a call and its return address are pushed, if there is room. -/
theorem Poised.calls
    (hroom : l.image.floor + 4 * ((linkOf? σ.store a (calleeLabel g scope)).toList.length +
      as.length + 1) ≤ (σ.registers .esp).number) :
    ∃ σ1 σ2 ws, σ.runAll? l.image front = some σ1 ∧
      σ1.push? l.image (l.image.code (a.function.line j + front.length + 1)) = some σ2 ∧
      σ.Piled l.image ((linkOf? σ.store a (calleeLabel g scope)).toList ++ ws) σ1 ∧
      List.Forall₂ (a.Finds p l rs σ rest) as ws := by
  obtain ⟨hpushes, hruns⟩ := h.pushes hcompiles htext hcall
  have hesp := h.esp_eq
  obtain ⟨σ1, hrun⟩ := isSome_iff_exists.mp (hruns (by omega))
  obtain ⟨ws, hpiled, hws⟩ := hpushes σ1 hrun
  have htop := hpiled.esp
  rw [length_append, ← hws.length_eq] at htop
  exact ⟨σ1, _, ws, hrun, push?_eq_some.mpr ⟨by omega, rfl⟩, hpiled, hws⟩

section Callee

variable (hcallee : callee ∈ rs) (hlabel : callee.label = calleeLabel g scope)
  (hdepth : callee.label.depth = some depth)

include hcallee hlabel hdepth

/-- A function is called with an argument for each of its parameters, which is passed as the
parameter asks. -/
theorem Poised.argument_of_parameter :
    as.length = callee.function.parameters.length ∧
      ∀ (i : Nat) (q : Parameter), callee.function.parameters[i]? = some q →
        ∃ x, as[i]? = some x ∧ x.byReference = q.byReference := by
  obtain ⟨first, hcalls, -⟩ := hcall.calls
  have hkinds := (hcompiles.agrees_target htext h.standing.function_mem hcallee hcalls.visible
    hlabel hdepth).2
  have hlength : g.parameters.length = callee.function.parameters.length := by
    rw [← length_map (f := Parameter.kind), hkinds, length_map]
  refine ⟨hcall.length_eq.trans hlength, fun i q hq => ?_⟩
  have hi := (List.getElem?_eq_some_iff.mp hq).1
  have hig : i < g.parameters.length := hlength ▸ hi
  have hia : i < as.length := hcall.length_eq ▸ hig
  have hsuits := (forall₂_iff_get.mp hcall.suits).2 i hia hig
  have hkind : g.parameters[i].kind = q.kind := by
    have hkind := congrArg (fun kinds => kinds[i]?) hkinds
    simpa [getElem?_map, hig, hq] using hkind
  exact ⟨as[i], getElem?_eq_getElem hia,
    hsuits.1.trans (Parameter.isScalar_of_kind_eq hkind).2.1⟩

/-- What was pushed is what a function finds at its base when its first lines have been run. -/
theorem Poised.receives {back : Nat}
    (hpiled : σ.Piled l.image (l.image.code back ::
      σ.store.frames a.base (a.function.site.hops depth).toNat :: ws) σ1)
    (hws : List.Forall₂ (a.Passed p l rs σ rest) as ws)
    (hentered : (ofCall callee back σ1).Entered p l rs (a :: rest) σ1)
    (hstart : σ1.runAll? l.image callee.startLines = some σ2) :
    a.Receives p l rs σ rest as (a.function.site.hops depth).toNat (ofCall callee back σ1) σ2 := by
  obtain ⟨hpoised, habove⟩ := hentered.poised hstart
  obtain ⟨hframed, -⟩ := id hpoised.standing.intact
  obtain ⟨harity, harguments⟩ :=
    h.argument_of_parameter hcompiles htext hcall hcallee hlabel hdepth
  refine ⟨hpoised.ebp, hframed.caller.trans h.ebp.symm, hframed.back, ?_, harity,
    fun i q hq => ?_, fun i q hq => ?_⟩
  · rw [hframed.link, h.ebp]
    exact hpiled.piles.2.1
  · obtain ⟨x, hx, href⟩ := harguments i q hq
    obtain ⟨hia, rfl⟩ := List.getElem?_eq_some_iff.mp hx
    have hiw : i < ws.length := hws.length_eq ▸ hia
    obtain ⟨-, hnumber, hle⟩ := hpoised.standing.intact.argument_extent mem_cons_self
      (show i < _ from (List.getElem?_eq_some_iff.mp hq).1)
    refine ⟨_, hx, href, ?_⟩
    rw [habove _ (by omega) (by omega), read_argument hpiled (getElem?_eq_getElem hiw)]
    exact (forall₂_iff_get.mp hws).2 i hia hiw
  · refine ⟨hcompiles.named_parameter htext hcallee hq, ?_⟩
    rw [address_argument, hpoised.ebp]

/-- A call of a function pushes its words and enters the function, if there is room. -/
theorem Poised.enters (htyped : tree.IsTyped)
    (hroom : l.image.floor + 4 * (as.length + 3) + callee.frame.size ≤ (σ.registers .esp).number) :
    ∃ c σ', c.function = callee ∧ c.back = a.function.line j + front.length + 1 ∧
      Scene.Leads (Scene.Next l.image p.assembly.program rs) (front.length + 5)
        ⟨a :: rest, ⟨a.function.line j, σ⟩⟩
        ⟨c :: a :: rest, ⟨callee.line (callee.first + 1), σ'⟩⟩ ∧
      c.Poised p l rs 0 (a :: rest) σ' ∧
      a.Receives p l rs σ rest as (a.function.site.hops depth).toNat c σ' := by
  have hlink : linkOf? σ.store a (calleeLabel g scope) =
      some (σ.store.frames a.base (a.function.site.hops depth).toNat) := by
    rw [linkOf?, ← hlabel, hdepth]
    rfl
  obtain ⟨σ1, σ2, ws, hrun, hpush, hpiled, hws⟩ := h.calls hcompiles htext hcall (by
    rw [hlink, toList_some, length_singleton]
    omega)
  rw [hlink] at hpiled
  have hentered := h.entered hcompiles htext htyped hcall hcallee hlabel hdepth hpiled hws hpush
  -- the return address, the link and the arguments lie one above the other
  replace hpiled := hpiled.push hpush
  have htop := hpiled.esp
  rw [toList_some, singleton_append, length_cons, length_cons,
    ← hws.length_eq] at htop
  have hfits : l.image.floor + 4 + callee.frame.size ≤ (σ2.registers .esp).number := by omega
  obtain ⟨σ3, hstart⟩ := callee.exists_runAll?_startLines hfits
  refine ⟨_, σ3, rfl, rfl, ?_, (hentered.poised hstart).1, ?_⟩
  · obtain ⟨hnext, hplaced, -⟩ := hcompiles.start_lines hcallee
    have hline := hcall.line
    rw [← hlabel] at hline
    rw [hnext]
    exact (Scene.next_of_runAll? hcall.placed.left hrun).trans
      (.cons (Scene.next_of_enter hcompiles hcallee hline hpush)
        (Scene.next_of_runAll? hplaced hstart))
  · exact h.receives hcompiles htext hcall hcallee hlabel hdepth hpiled
      (h.passed hcompiles htext hcall htyped hws) hentered hstart

end Callee

/-! ### What comes after the call -/

omit hcompiles htext hcall in
/-- The words of a call that are left on the stack make up what was pushed. -/
theorem Poised.esp_add (htop : (σ1.registers .esp).number + 4 * words = bottom l (a :: rest)) :
    σ1.registers .esp + .ofNat (4 * words) = σ.registers .esp := by
  have hlt := (σ.registers .esp).number_lt
  have hesp := h.esp_eq
  rw [← number_inj, number_add (by omega)]
  omega

/-- The lines after a call restore the stack and store the result. -/
theorem Poised.balances
    (hwords : (if (calleeLabel g scope).depth.isSome then 1 else 0) + as.length = words)
    (hebp : σ1.registers .ebp = σ.registers .ebp)
    (htop : (σ1.registers .esp).number + 4 * words = bottom l (a :: rest)) :
    ∃ σ2, Scene.Leads (Scene.Next l.image p.assembly.program rs) tail.length
        ⟨a :: rest, ⟨a.function.line j + front.length + 1, σ1⟩⟩
        ⟨a :: rest, ⟨a.function.line (j + 1), σ2⟩⟩ ∧
      σ.Balanced a.function.frame destination g.result σ1.store (σ1.registers .eax) σ2 := by
  have hr := h.standing.function_mem
  have hresumes := hcall.resumes hwords
  obtain ⟨σ2, hrun, hcleaned⟩ := resumes_run hcompiles htext hr hresumes l.image σ1
  refine ⟨σ2, ?_, hcleaned.esp.trans (h.esp_add htop), hcleaned.ebp.trans hebp, ?_, ?_⟩
  · rw [hresumes.next]
    exact Scene.next_of_runAll? hresumes.placed hrun
  · rintro rfl
    exact hcleaned.store
  · rintro n rfl
    obtain ⟨p', hcloses⟩ := hcompiles.closes _ hr
    have hsome := (hcloses.site_sound (hcompiles.settled _ hr)).place?_isSome
      (σ1.store.frames (σ1.registers .ebp)) σ1.store (.inr ⟨n, rfl, hcall.writable n rfl⟩)
    rw [← (hcompiles.layout_agrees htext hr).place?_eq] at hsome
    obtain ⟨⟨ty, addr⟩, hplace⟩ := isSome_iff_exists.mp hsome
    obtain ⟨hty, haddr⟩ := Layout.place?_temp_eq_some.mp hplace
    obtain ⟨offset, hoffset, rfl⟩ := map_eq_some_iff.mp haddr
    -- the temporary has the type of the result
    obtain rfl : ty = g.result := by
      obtain ⟨first, hcalls, -⟩ := hcall.calls
      obtain ⟨hnone, -⟩ | ⟨n', hn', -, htypes⟩ := hcalls.destination
      · cases hnone
      · cases hn'
        have hown : (Operand.temp n).HasType a.function.site.env a.function.site.code ty := hty
        cases (hown.typeOf p.assembly).symm.trans (htypes p.assembly)
        rfl
    refine ⟨offset, hoffset, ?_⟩
    have hstore := hcleaned.store
    rw [map_some, bind_some, hplace] at hstore
    rw [hstore, ← hebp]
    rfl

/-- The end of a function leads back to what comes after its call. -/
theorem Poised.leaves (hsuits : l.Suits p.assembly.program)
    (hdepth : (calleeLabel g scope).depth = some depth) (hc : c.Poised p l rs 0 (a :: rest) σ1)
    (hback : c.back = a.function.line j + front.length + 1) (harity : as.length = c.arity) :
    ∃ σ2, Scene.Leads (Scene.Next l.image p.assembly.program rs) (4 + tail.length)
        ⟨c :: a :: rest, ⟨c.function.epilogue, σ1⟩⟩ ⟨a :: rest, ⟨a.function.line (j + 1), σ2⟩⟩ ∧
      σ.Balanced a.function.frame destination g.result σ1.store (σ1.registers .eax) σ2 := by
  obtain ⟨-, hplaced, -⟩ := hcompiles.finish_lines hc.standing.function_mem
  obtain ⟨σ2, hrun, hstore, heax, hebp, hreturn, hesp⟩ := hc.left c.function.last
  have hfinish : σ1.runAll? l.image c.function.finishLines = some σ2 := by
    rwa [runAll?_append_eq, c.function.runAll?_mark, bind_some] at hrun
  have hreturned := hc.returns.1
  have hmem := hc.standing.function_mem
  -- the return itself
  have hret : p.assembly.program[c.function.epilogue + c.function.finishLines.length]? =
      some .ret := by
    have hline := hplaced.right.head
    rwa [length_append, ← Nat.add_assoc] at hline
  have hleave : Scene.Next l.image p.assembly.program rs
      ⟨c :: a :: rest, ⟨c.function.epilogue + c.function.finishLines.length, σ2⟩⟩
      ⟨a :: rest, ⟨c.back, σ2.set .esp (σ2.registers .esp + 4)⟩⟩ :=
    Scene.next_of_ret hret hreturn (hreturned.back_le hcompiles htext hmem)
      fun _ => hsuits.eq_back hcompiles htext hreturned hmem
  have hwords : (if (calleeLabel g scope).depth.isSome then 1 else 0) + as.length =
      c.arity + 1 := by
    rw [hdepth, harity]
    exact Nat.add_comm 1 _
  have hbase : (σ2.set .esp (σ2.registers .esp + 4)).registers .ebp = σ.registers .ebp :=
    hebp.trans h.ebp.symm
  obtain ⟨σ3, hleads, hbalanced⟩ :=
    h.balances hcompiles htext hcall hwords hbase hesp
  rw [hback] at hleave
  refine ⟨σ3, ?_, ?_⟩
  · rw [show 4 + tail.length = c.function.finishLines.length + (tail.length + 1) from
      Nat.add_right_comm 3 1 _]
    exact (Scene.next_of_runAll? hplaced.left.right hfinish).trans (.cons hleave hleads)
  · rwa [store_set, hstore, show (σ2.set .esp _).registers .eax = _ from heax] at hbalanced

/-! ### Standard routines -/

theorem Poised.delegates (htyped : tree.IsTyped) (hsuits : l.Suits p.assembly.program)
    (hdepth : (calleeLabel g scope).depth = none)
    (hroom : l.image.floor + 4 * (as.length + 1) ≤ (σ.registers .esp).number) :
    a.Delegates p l rs σ rest j (calleeLabel g scope).text as destination g.result front
      tail := by
  have hr := h.standing.function_mem
  have hlink : linkOf? σ.store a (calleeLabel g scope) = none := by
    rw [linkOf?, hdepth]
    rfl
  obtain ⟨σ0, σ1, ws, hrun, hpush, hpiled, hws⟩ := h.calls hcompiles htext hcall (by
    rw [hlink, toList_none, length_nil, Nat.zero_add]
    exact hroom)
  rw [hlink, toList_none, nil_append] at hpiled
  have hpiled1 := hpiled.push hpush
  refine ⟨σ0, σ1, ws, Scene.next_of_runAll? hcall.placed.left hrun, hpiled1,
    h.passed hcompiles htext hcall htyped hws, fun S => ?_, fun σ2 hroutine => ?_⟩
  · obtain ⟨first, hcalls, -⟩ := hcall.calls
    have hnone := hcompiles.idxOf?_standard htext hr hcalls.visible hdepth
    refine Scene.step_routine_iff hcall.line hnone (fun r hr => ?_) hpush
    rw [(hcompiles.start_lines hr).2.2]
    rfl
  · obtain ⟨hebp, hesp⟩ := hsuits.routine _ _ _ hroutine
    have htop := hpiled1.esp
    rw [length_cons, ← hws.length_eq] at htop
    have hlt := (σ.registers .esp).number_lt
    have hnumber : (σ2.registers .esp).number = (σ1.registers .esp).number + 4 := by
      rw [hesp]
      exact number_add (n := 4) (by omega)
    have hwords : (if (calleeLabel g scope).depth.isSome then 1 else 0) + as.length =
        as.length := by
      rw [hdepth]
      exact Nat.zero_add _
    exact h.balances hcompiles htext hcall hwords (hebp.trans hpiled1.ebp)
      (by rw [← h.esp_eq]; omega)

end Calls

/-! ### Returns with a value -/

/-- Where a function sets its result and returns, the value is in `eax` at its end. -/
theorem Poised.returns_value (h : c.Poised p l rs 0 rest σ) (hcompiles : Compiles tree p rs)
    (htext : tree.InText) {x : Operand} (hi : c.function.first ≤ i)
    (hq : c.function.closed.code.quads[i]? = some (assignQuad x .returnValue)) :
    ∃ w n σ', (c.function.layout rs).value? (σ.store.frames c.base) σ.store x = some w ∧
      Scene.Leads (Scene.Next l.image p.assembly.program rs) n
        ⟨c :: rest, ⟨c.function.line i, σ⟩⟩ ⟨c :: rest, ⟨c.function.epilogue, σ'⟩⟩ ∧
      c.Poised p l rs 0 rest σ' ∧ σ'.store = σ.store ∧ σ'.registers .eax = w := by
  have hr := h.standing.function_mem
  obtain ⟨p', hcloses⟩ := hcompiles.closes _ hr
  obtain ⟨front, others, -, -, hnext, hplaced, hruns, hperforms⟩ :=
    hcompiles.inner_lines htext hr hi hq trivial l.image (h.running _)
  obtain ⟨σ', hrun⟩ := hruns fun ⟨_, _, _, _, _, hop, _⟩ => nomatch hop
  obtain ⟨o, ho, hperformed, hcontinues⟩ := hperforms σ' hrun
  obtain ⟨w, hw, rfl⟩ := Layout.effect?_returnValue.mp ho
  -- the result is no jump
  obtain rfl : others = [] := by
    cases others with
    | nil => rfl
    | cons x others =>
      obtain ⟨t, ht, -⟩ := hcontinues.of_jump
      cases ht
  rw [append_nil] at hnext hplaced
  have hset : Scene.Leads (Scene.Next l.image p.assembly.program rs) _
      ⟨c :: rest, ⟨c.function.line i, σ⟩⟩ _ := Scene.next_of_runAll? hplaced hrun
  rw [← hnext] at hset
  -- the next quad leads to the end
  have hreturn := (hcloses.stepwise returning_stepwise).returns i x hi hq
  obtain ⟨-, hjump⟩ := hcompiles.ret_lines hr (hi.trans (Nat.le_succ i)) hreturn rfl
  have hmark : Scene.Leads (Scene.Next l.image p.assembly.program rs) _
      ⟨c :: rest, ⟨c.function.line (i + 1), σ'⟩⟩ _ :=
    Scene.next_of_runAll? hjump.left (c.function.runAll?_mark _ l.image σ')
  obtain ⟨-, -, hlabel⟩ := hcompiles.finish_lines hr
  have hend : Scene.Leads (Scene.Next l.image p.assembly.program rs) _ _
      ⟨c :: rest, ⟨c.function.epilogue, σ'⟩⟩ := .single (Scene.next_of_jmp hjump.right.head hlabel)
  exact ⟨w, _, σ', hw, (hset.trans hmark).trans hend,
    h.performed (fun _ _ => rfl) hperformed, hperformed.store, hperformed.result w rfl⟩

end Invocation

end BlockLang
