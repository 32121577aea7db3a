import BlockLang.Proofs.Invocation.Argument

/-!
# What lines do to the frames

The quads of a function write to data only, so the frames stay intact. A call pushes its
words below all frames. The first lines of the function that is called make a frame of them,
and its last lines take that frame away. What is pushed is taken from the stack by the lines
after the call.
-/

namespace BlockLang

open Activation Layout List Option Processor Store Word

variable {tail : List Instruction} {ws : List Word} {back j : Nat} {destination : Option Nat}

namespace Invocation

variable {tree : Decl} {p : Progress} {l : Launch} {rs : List CompiledFunction}
  {a b c : Invocation} {rest : List Invocation} {s : Store} {σ σ' σ1 σ2 : Processor}
  {words words' : Nat}

/-- Writing data, or below all frames, leaves the processor poised. -/
theorem Poised.congr (h : a.Poised p l rs words rest σ)
    (hstore : ∀ b, b ∉ l.Data (a :: rest) → bottom l (a :: rest) ≤ b.number →
      σ'.store b = σ.store b) (hebp : σ'.registers .ebp = σ.registers .ebp)
    (hesp : (σ'.registers .esp).number + 4 * words' = bottom l (a :: rest)) :
    a.Poised p l rs words' rest σ' where
  standing := ⟨h.standing.sound, h.standing.intact.congr hstore⟩
  returns := h.returns
  ebp := hebp.trans h.ebp
  esp := hesp

theorem Poised.esp_eq (h : a.Poised p l rs 0 rest σ) :
    (σ.registers .esp).number = bottom l (a :: rest) := h.esp

/-- The frames that the links in memory lead to can be reached. -/
theorem Poised.running (h : a.Poised p l rs words rest σ) (depth : Nat) :
    σ.Running (σ.store.frames a.base) depth := ⟨h.ebp, fun _ _ => rfl⟩

/-! ### Quads that are not part of a call -/

/-- A quad writes to data only. -/
theorem Standing.effect (h : Standing l rs s a rest) (hcompiles : Compiles tree p rs)
    (htext : tree.InText) (htyped : tree.IsTyped) {q : Quad} {i j : Nat} {o : Outcome}
    {image : Image} {literals : List String} (hi : a.function.first ≤ j)
    (hq : a.function.closed.code.quads[j]? = some q) (hranged : a.Ranged l rs s rest q)
    (ho : (a.function.layout rs).effect? (s.frames a.base) s image literals q i = some o) :
    ∀ b, b ∉ l.Data (a :: rest) → o.store b = s b := by
  have hr := h.function_mem
  have henv := hcompiles.typed_env htext htyped hr
  obtain ⟨p', hcloses⟩ := hcompiles.closes _ hr
  obtain ⟨hwf, hpending⟩ := hcloses.wellFormed hi hq
  have hwrite : ∀ (ty : Ty) {addr w : Word}, addr.bytes ty.width ⊆ l.Data (a :: rest) →
      ∀ b, b ∉ l.Data (a :: rest) → s.write ty addr w b = s b :=
    fun _ _ _ hdata b hb => write_of_notMem fun hmem => hb (hdata hmem)
  obtain ⟨op, first, second, output⟩ := q
  cases op with
  | assign =>
    obtain ⟨x, y, rfl, -, rfl, hy⟩ := hwf
    by_cases hreturn : y = .returnValue
    · subst hreturn
      obtain ⟨w, -, rfl⟩ := effect?_returnValue.mp ho
      exact fun _ _ => rfl
    obtain ⟨w, ty, addr, -, hplace, rfl⟩ := (effect?_assign hreturn).mp ho
    by_cases hsubscripted : Subscripted (a :: rest) y
    · exact hwrite _ (hranged rfl y ty addr rfl hsubscripted hplace)
    · exact hwrite _ (h.data_of_place hcompiles htext henv (hy.resolve_left hreturn).1
        hsubscripted hplace)
  | array =>
    obtain ⟨x, y, n, rfl, -, rfl, -, rfl, -, hn, -⟩ := hwf
    obtain ⟨info, start, index, addr, -, -, -, haddr, rfl⟩ := effect?_array.mp ho
    have howned := h.owned_temp hcompiles hn nofun haddr
    exact hwrite .int (data_of_owned ⟨a, mem_cons_self, howned⟩)
  | arith operator =>
    obtain ⟨x, y, n, rfl, -, rfl, -, rfl, hn⟩ := hwf
    obtain ⟨_, _, _, ty, addr, -, -, -, hplace, rfl⟩ := effect?_arith.mp ho
    exact hwrite _ (h.data_of_place hcompiles htext henv hn nofun hplace)
  | jump =>
    obtain ⟨t, rfl⟩ := hwf.resolve_left hpending
    obtain rfl := effect?_jump.mp ho
    exact fun _ _ => rfl
  | compare relation =>
    obtain ⟨htarget, x, y, rfl, -, rfl, -⟩ := hwf
    obtain ⟨t, rfl⟩ := htarget.resolve_left hpending
    obtain ⟨_, _, -, -, rfl⟩ := effect?_compare.mp ho
    exact fun _ _ => rfl
  | _ => cases ho

/-- A quad that has been performed leaves the processor poised. -/
theorem Poised.performed (h : a.Poised p l rs 0 rest σ) {o : Outcome}
    (ho : ∀ b, b ∉ l.Data (a :: rest) → o.store b = σ.store b) (hperformed : σ.Performed o σ') :
    a.Poised p l rs 0 rest σ' := by
  refine h.congr (fun b hb _ => ?_) hperformed.ebp ?_
  · rw [hperformed.store, ho b hb]
  · rw [hperformed.esp, h.esp]

/-! ### Calls -/

/-- The invocation of a function, when the return address has been pushed. -/
def ofCall (callee : CompiledFunction) (back : Nat) (σ : Processor) : Invocation :=
  ⟨⟨callee, σ.registers .esp - 4, σ.store.read .int (σ.registers .esp + 4)⟩, back⟩

theorem base_ofCall (callee : CompiledFunction) (back : Nat) (σ : Processor) :
    (ofCall callee back σ).base + 4 = σ.registers .esp ∧
      (ofCall callee back σ).base + 8 = σ.registers .esp + 4 := by
  have hbase : σ.registers .esp - 4 + 4 = σ.registers .esp := Int32.sub_add_cancel ..
  refine ⟨hbase, ?_⟩
  change σ.registers .esp - 4 + (4 + 4) = _
  rw [← Int32.add_assoc, hbase]

/-- The arguments of an invocation lie above its link. -/
theorem read_argument {callee : CompiledFunction} {i : Nat} {w w1 w2 : Word}
    (h : σ.Piled l.image (w1 :: w2 :: ws) σ') (hw : ws[i]? = some w) :
    σ'.store.read .int ((ofCall callee back σ').base + .ofNat (12 + 4 * i)) = w := by
  obtain ⟨-, -, hpiles⟩ := h.piles
  have haddress : (ofCall callee back σ').base + .ofNat (12 + 4 * i) =
      σ'.registers .esp + 4 + 4 + .ofNat (4 * i) := by
    rw [← (base_ofCall callee back σ').2, Int32.ofNat_add, ← Int32.add_assoc]
    rw [show Int32.ofNat 12 = 8 + 4 by decide, ← Int32.add_assoc]
  rw [haddress]
  exact hpiles.getElem? hw

section Calls

variable {j : Nat} {g : FunctionDecl} {scope depth : Int} {as : List Argument}
  {destination : Option Nat} {front tail : List Instruction} {callee : CompiledFunction}
  {ws : List Word}

/-- A new frame lies below all others. -/
theorem Poised.base_notMem (h : a.Poised p l rs 0 rest σ) {base : Word}
    (hlt : (base + 4).number ≤ bottom l (a :: rest)) :
    base ∉ ((a :: rest).map toActivation).map Activation.base := by
  intro hmem
  obtain ⟨_, hmem, heq⟩ := mem_map.mp hmem
  obtain ⟨c, hc, rfl⟩ := mem_map.mp hmem
  obtain ⟨older, hframed, htop⟩ := h.standing.intact.framed hc
  have hheight := hframed.height
  have hle : l.top ≤ l.limit := Nat.sub_le _ _
  have hlimit : l.limit < 2 ^ 32 := number_lt _
  have hbottom := h.standing.intact.bottom_le (b := c.base) hc ⟨Nat.le_add_right _ _, by omega⟩
  have hnumber : (c.base + 4).number = c.base.number + 4 := number_add (n := 4) (by omega)
  rw [show c.base = base from heq] at hnumber hbottom
  omega

/-- The link of a function that is called leads to the frame that the caller found. -/
theorem Poised.follow?_link (h : a.Poised p l rs 0 rest σ) {hops : Int}
    (hsees : a.function.Sees callee hops) :
    follow? ((a :: rest).map toActivation) hops.toNat a.base =
      some (σ.store.frames a.base hops.toNat) := by
  obtain ⟨-, hle⟩ := hops_le hsees
  obtain ⟨target, htarget⟩ := isSome_iff_exists.mp (h.standing.sound.follow?_isSome hle)
  exact htarget.trans (congrArg some (h.standing.intact.frames_eq htarget).symm)

theorem Poised.entered (h : a.Poised p l rs 0 rest σ) (hcompiles : Compiles tree p rs)
    (htext : tree.InText) (htyped : tree.IsTyped)
    (hcall : a.function.CallsAt p j g scope as destination front tail) (hcallee : callee ∈ rs)
    (hlabel : callee.label = Emit.calleeLabel g scope) (hdepth : callee.label.depth = some depth)
    (hpiled : σ.Piled l.image (σ.store.frames a.base (a.function.site.hops depth).toNat :: ws) σ1)
    (hws : List.Forall₂ (a.Finds p l rs σ rest) as ws)
    (hpush : σ1.push? l.image (l.image.code (a.function.line j + front.length + 1)) = some σ2) :
    (ofCall callee (a.function.line j + front.length + 1) σ2).Entered p l rs (a :: rest) σ2 := by
  have hr := h.standing.function_mem
  obtain ⟨first, hcalls, hj⟩ := hcall.calls
  have hagrees : g.Agrees callee.function :=
    hcompiles.agrees_target htext hr hcallee hcalls.visible hlabel hdepth
  have harity : as.length = callee.function.parameters.length := by
    rw [hcall.length_eq, ← length_map (f := Parameter.kind), hagrees.2, length_map]
  have hsees : a.function.Sees callee (a.function.site.hops depth) :=
    hcompiles.sees_target htext hr hcall.first_lt.le hcall.quad rfl (hlabel ▸ hdepth) hcallee hlabel
  have hresumes : a.function.Resumes p j (callee.function.parameters.length + 1) destination
      (a.function.line j + front.length + 1) tail := by
    refine hcall.resumes ?_
    rw [← hlabel, hdepth, harity]
    exact Nat.add_comm 1 _
  -- the return address, the link and the arguments lie one above the other
  have hpiled2 := hpiled.push hpush
  have hesp := hpiled2.esp
  rw [h.esp_eq, length_cons, length_cons, ← hws.length_eq, harity] at hesp
  have hfixed : Set.EqOn σ2.store σ.store (l.image.Fixed (bottom l (a :: rest))) := by
    have hstore := hpiled2.store
    rwa [h.esp_eq] at hstore
  obtain ⟨hback, hread, hpiles⟩ := hpiled2.piles
  obtain ⟨hbase, hbase'⟩ := base_ofCall callee (a.function.line j + front.length + 1) σ2
  refine {
    sound := h.standing.sound.call hcallee hsees
      ((h.follow?_link hsees).trans (congrArg some hread.symm)) (h.base_notMem ?_)
    returns := ⟨⟨⟨_, rfl, hlabel ▸ hcall.line⟩, j, destination, tail, hresumes⟩, h.returns⟩
    intact := h.standing.intact.congr fun b _ hb => hfixed (.inr hb)
    ebp := hpiled2.ebp.trans h.ebp
    esp := hbase.symm
    height := ?_
    back := by rw [hbase, hback]; rfl
    link := by rw [hbase']; rfl
    references := ?_ }
  · rw [hbase]
    omega
  · change _ + 8 + 4 * callee.function.parameters.length = _
    omega
  · intro i q hq href hscalar hexact
    replace hq : callee.function.parameters[i]? = some q := hq
    have hi := (List.getElem?_eq_some_iff.mp hq).1
    have hia : i < as.length := by omega
    have hig : i < g.parameters.length := hcall.length_eq ▸ hia
    have hkind : g.parameters[i].kind = q.kind := by
      have hkinds := congrArg (fun kinds => kinds[i]?) hagrees.2
      simpa [getElem?_map, hig, hq] using hkinds
    obtain ⟨hty, href', hscalar'⟩ := Parameter.isScalar_of_kind_eq hkind
    obtain ⟨s, hs, hw⟩ := (forall₂_iff_get.mp hws).2 i hia (hws.length_eq ▸ hia)
    have hsuits := (forall₂_iff_get.mp hcall.suits).2 i hia hig
    simp only [get_eq_getElem] at hw hsuits
    have hlocated := hcall.arguments _ (getElem_mem hia)
    rw [h.standing.word?_congr hcompiles htext hs hlocated] at hw
    · rw [read_argument hpiled2 (getElem?_eq_getElem (hws.length_eq ▸ hia)), ← hty]
      refine h.standing.data_of_argument hcompiles htext (hcompiles.typed_env htext htyped hr)
        hsuits (href'.trans href) (hscalar'.mpr hscalar) ?_ hw
      refine hexact as _ ⟨j, first, g, scope, destination, hcalls, hj, ?_, ?_⟩
        (getElem?_eq_getElem hia)
      · exact hresumes.line_lt
      · rw [hresumes.next]
        exact Nat.le_add_right _ _
    · intro hvalue
      rw [hsuits.1, href', href] at hvalue
      cases hvalue

end Calls

/-! ### The start of a function -/

/-- The base of the frame that a function will have, when it has been entered. -/
theorem Entered.base_eq (h : c.Entered p l rs rest σ) : σ.registers .esp - 4 = c.base := by
  rw [h.esp, Int32.add_sub_cancel]

/-- The first lines of a function make its frame, and change no word above its base. -/
theorem Entered.poised (h : c.Entered p l rs rest σ)
    (hrun : σ.runAll? l.image c.function.startLines = some σ') :
    c.Poised p l rs 0 rest σ' ∧
      ∀ addr : Word, c.base.number + 4 ≤ addr.number → addr.number + 4 ≤ 2 ^ 32 →
        σ'.store.read .int addr = σ.store.read .int addr := by
  obtain ⟨hroom, hframe, rfl⟩ := c.function.runAll?_startLines.mp hrun
  rw [h.base_eq] at hframe ⊢
  have hbase : c.base.number + 4 = (σ.registers .esp).number := by
    have hnumber : (σ.registers .esp - 4).number = (σ.registers .esp).number - 4 :=
      number_sub (n := 4) (by omega)
    rw [h.base_eq] at hnumber
    omega
  have hheight := h.height
  have htop := h.intact.bottom_le_top
  have hlimit : l.limit < 2 ^ 32 := number_lt _
  have hle : l.top ≤ l.limit := Nat.sub_le _ _
  have habove : ∀ addr : Word, c.base.number + 4 ≤ addr.number → addr.number + 4 ≤ 2 ^ 32 →
      (σ.store.write .int c.base (σ.registers .ebp)).read .int addr = σ.store.read .int addr :=
    fun addr hlow hhigh => read_write_above hlow hhigh
  have hword : ∀ n, 4 ≤ n → n + 4 ≤ 12 + 4 * c.arity →
      (σ.store.write .int c.base (σ.registers .ebp)).read .int (c.base + .ofNat n) =
        σ.store.read .int (c.base + .ofNat n) := by
    intro n hn hn'
    have hnumber : (c.base + .ofNat n).number = c.base.number + n := number_add (by omega)
    exact habove _ (by omega) (by omega)
  refine ⟨⟨⟨h.sound, ⟨⟨hframe, by omega, ?_, ?_, ?_, ?_⟩, ?_⟩⟩, h.returns, rfl, ?_⟩, habove⟩
  · exact (read_write ..).trans h.ebp
  · exact (hword 4 le_rfl (by omega)).trans h.back
  · exact (hword 8 (by decide) (by omega)).trans h.link
  · intro i q hq href hscalar hexact
    have hi : i < c.arity := (List.getElem?_eq_some_iff.mp hq).1
    have hread := hword (12 + 4 * i) (by omega) (by omega)
    change (read (σ.store.write .int c.base (σ.registers .ebp)) .int _).bytes _ ⊆ _
    rw [hread]
    exact h.references i q hq href hscalar hexact
  · refine h.intact.congr fun b _ hb => write_of_notMem fun hmem => ?_
    have hwidth : Ty.int.width = 4 := rfl
    rw [hwidth, mem_bytes (by omega)] at hmem
    omega
  · exact number_sub (by omega)

/-! ### The end of a function -/

/-- The last lines of a function take its frame away. What is found on top of the stack then
is the line to return to, and the base of the caller has been restored. -/
theorem Poised.left (h : a.Poised p l rs 0 rest σ) (i : Nat) :
    ∃ σ', σ.runAll? l.image (a.function.mark i ++ a.function.finishLines) = some σ' ∧
      σ'.store = σ.store ∧ σ'.registers .eax = σ.registers .eax ∧
      σ'.registers .ebp = frameBase l rest ∧
      σ'.store.read .int (σ'.registers .esp) = l.image.code a.back ∧
      (σ'.registers .esp + 4).number + 4 * (a.arity + 1) = bottom l rest := by
  obtain ⟨hframed, hintact⟩ := h.standing.intact
  have hheight := hframed.height
  have htop := hintact.bottom_le_top
  have hlimit : l.limit < 2 ^ 32 := number_lt _
  have hle : l.top ≤ l.limit := Nat.sub_le _ _
  obtain ⟨σ', hrun, hstore, hesp, hebp, heax⟩ :=
    a.function.exists_runAll?_finishLines i l.image σ
  rw [h.ebp] at hesp hebp
  refine ⟨σ', hrun, hstore, heax, hebp.trans hframed.caller, ?_, ?_⟩
  · rw [hstore, hesp]
    exact hframed.back
  · have hnumber : (a.base + .ofNat 8).number = a.base.number + 8 := number_add (by omega)
    rw [hesp, Int32.add_assoc]
    change (a.base + .ofNat 8).number + _ = _
    omega

/-- A function that has returned leaves its words to the caller. -/
theorem Poised.returned (h : c.Poised p l rs words (a :: rest) σ) (hstore : σ'.store = σ.store)
    (hebp : σ'.registers .ebp = a.base)
    (hesp : (σ'.registers .esp).number + 4 * words' = bottom l (a :: rest)) :
    a.Poised p l rs words' rest σ' := by
  obtain ⟨hsound, -, hintact⟩ := h.standing
  cases hsound with
  | cons rest_sound =>
    exact ⟨⟨rest_sound, hstore ▸ hintact⟩, h.returns.2, hebp, hesp⟩

/-! ### After a call -/

/-- The lines after a call take its words from the stack and store its result, whatever memory
is like. -/
theorem resumes_run (hcompiles : Compiles tree p rs) (htext : tree.InText) {r : CompiledFunction}
    (hr : r ∈ rs) (hresumes : r.Resumes p j words destination back tail) (image : Image)
    (σ : Processor) :
    ∃ σ', σ.runAll? image tail = some σ' ∧ σ.Cleaned words ((destination.map .temp).bind
      ((r.layout rs).place? (σ.store.frames (σ.registers .ebp)) σ.store)) σ' := by
  obtain ⟨p', hcloses⟩ := hcompiles.closes _ hr
  have hsite := hcloses.site_sound (hcompiles.settled _ hr)
  rw [(hcompiles.layout_agrees htext hr).place?_eq]
  refine hresumes.cleans image _ σ ⟨rfl, fun _ _ => rfl⟩ fun o ho => ?_
  obtain ⟨n, hn, rfl⟩ := map_eq_some_iff.mp ho
  exact hsite.place?_isSome _ _ (.inr ⟨n, rfl, hresumes.writable n hn⟩)

/-- The words of a call are taken from the stack, and its result is stored. -/
theorem Poised.resumed (h : a.Poised p l rs words rest σ) (hcompiles : Compiles tree p rs)
    (htext : tree.InText) (htyped : tree.IsTyped)
    (hresumes : a.function.Resumes p j words destination back tail) :
    ∃ σ', σ.runAll? l.image tail = some σ' ∧ a.Poised p l rs 0 rest σ' ∧
      σ.Cleaned words ((destination.map .temp).bind
        ((a.function.layout rs).place? (σ.store.frames a.base) σ.store)) σ' := by
  have hr := h.standing.function_mem
  obtain ⟨σ', hrun, hcleaned⟩ := resumes_run hcompiles htext hr hresumes l.image σ
  rw [h.ebp] at hcleaned
  refine ⟨σ', hrun, h.congr (fun b hb hle => ?_) hcleaned.ebp ?_, hcleaned⟩
  · rw [hcleaned.store]
    cases hcell : (destination.map Operand.temp).bind
        ((a.function.layout rs).place? (σ.store.frames a.base) σ.store) with
    | none => rfl
    | some cell =>
      obtain ⟨o, ho, hcell⟩ := bind_eq_some_iff.mp hcell
      obtain ⟨n, hn, rfl⟩ := map_eq_some_iff.mp ho
      exact write_of_notMem fun hmem => hb (h.standing.data_of_place hcompiles htext
        (hcompiles.typed_env htext htyped hr) (hresumes.writable n hn) nofun hcell hmem)
  · have hesp := h.esp
    have hlimit : l.limit < 2 ^ 32 := number_lt _
    have hle : l.top ≤ l.limit := Nat.sub_le _ _
    have htop := h.standing.intact.bottom_le_top
    rw [hcleaned.esp, number_add (by omega)]
    omega

/-! ### Standard routines -/

/-- A standard routine leaves the words of its call on the stack. -/
theorem Poised.routine (h : a.Poised p l rs 0 rest σ) (hpiled : σ.Piled l.image ws σ1)
    (hstore : ∀ b, b ∉ l.Data (a :: rest) → bottom l (a :: rest) ≤ b.number →
      σ2.store b = σ1.store b) (hebp : σ2.registers .ebp = σ1.registers .ebp)
    (hesp : σ2.registers .esp = σ1.registers .esp) : a.Poised p l rs ws.length rest σ2 := by
  refine h.congr (fun b hb hle => (hstore b hb hle).trans (hpiled.store (.inr ?_)))
    (hebp.trans hpiled.ebp) ?_
  · rwa [h.esp_eq]
  · rw [hesp, hpiled.esp, h.esp_eq]

/-! ### The start of the program -/

/-- The first lines of a program save registers, and its call enters the function. -/
theorem entered_of_start {main : CompiledFunction} (hmain : main ∈ rs) (hpath : main.path = [])
    (hparameters : main.function.parameters = [])
    (hrun : l.start.runAll? l.image Assembly.entryLines = some σ)
    (hpush : σ.push? l.image (l.image.code 11) = some σ') :
    (ofCall main 11 σ').Entered p l rs [] σ' := by
  obtain ⟨σ0, hpush0, hrun⟩ := bind_eq_some_iff.mp
    (show (l.start.push? l.image (l.start.registers .ebp)).bind _ = some σ from hrun)
  obtain ⟨hroom, rfl⟩ := push?_eq_some.mp hpush0
  -- the base of the program is there, and five words are pushed below it
  obtain ⟨σ1, hpush1, hrun⟩ := bind_eq_some_iff.mp
    (show (Processor.push? l.image (Processor.set _ .ebp l.outer) _).bind _ = some σ from hrun)
  obtain ⟨σ2, hpush2, hrun⟩ := bind_eq_some_iff.mp
    (show (σ1.push? l.image (σ1.registers .esi)).bind _ = some σ from hrun)
  obtain ⟨σ3, hpush3, hrun⟩ := bind_eq_some_iff.mp
    (show (σ2.push? l.image (σ2.registers .edi)).bind _ = some σ from hrun)
  obtain ⟨σ4, hpush4, hrun⟩ := bind_eq_some_iff.mp
    (show (σ3.push? l.image (σ3.registers .ebp)).bind _ = some σ from hrun)
  cases hrun
  have hpiled :=
    (((((Piled.refl l.image _).push hpush1).push hpush2).push hpush3).push hpush4).push hpush
  have hesp := hpiled.esp
  change (σ'.registers .esp).number + 20 = (l.start.registers .esp - 4).number at hesp
  have hlimit : (l.start.registers .esp - 4).number = l.limit - 4 :=
    number_sub (n := 4) (by omega)
  obtain ⟨hbase, hbase'⟩ := base_ofCall main 11 σ'
  refine {
    sound := .start hmain hpath
    returns := ⟨⟨rfl, congrArg List.length hparameters⟩, trivial⟩
    intact := trivial
    ebp := hpiled.ebp
    esp := hbase.symm
    height := ?_
    back := by rw [hbase]; exact hpiled.piles.1
    link := by rw [hbase']; rfl
    references := ?_ }
  · change _ + 8 + 4 * main.function.parameters.length = l.limit - 16
    rw [hparameters, length_nil]
    omega
  · intro i q hq
    replace hq : main.function.parameters[i]? = some q := hq
    rw [hparameters] at hq
    cases hq

end Invocation

end BlockLang
