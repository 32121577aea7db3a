import BlockLang.Proofs.Processor.Lower
import BlockLang.Proofs.Quad.WellFormed

/-!
# What lowered quads do

The lines of a quad compute a word in registers, from operands that are loaded one after
the other, and store it. A jump or a conditional jump comes last. So a quad has its effect
on memory and leads to the quad that comes next, and it keeps the base of the frame and
the top of the stack.
-/

namespace BlockLang

open Arith Layout List Option Processor

variable {operator : Arith} {x y : Operand} {σ : Processor} {a b w : Word}

/-- A quad is neither part of a call nor the start, the end or a return of a function. -/
def Opcode.IsInner : Opcode → Prop
  | .assign | .array | .arith _ | .jump | .compare _ => True
  | _ => False

/-- A quad has been performed: its effect is there, and the frame and the stack are kept. -/
structure Processor.Performed (σ : Processor) (o : Outcome) (σ' : Processor) : Prop where
  store : σ'.store = o.store
  ebp : σ'.registers .ebp = σ.registers .ebp
  esp : σ'.registers .esp = σ.registers .esp
  result : ∀ w, o.result = some w → σ'.registers .eax = w

namespace Lower

open Assembly

/-- The registers that quads compute in. -/
def scratch : List Register := [.esi, .edi, .eax, .ebx, .ecx, .edx]

/-- How the lines of a quad end: they lead to the next line, or a jump comes last. -/
inductive Continues (front : List Instruction) (σ : Processor) (i : Nat)
    (target : Option Operand) : Nat → List Instruction → Prop
  | next : Continues front σ i target (i + 1) front
  | jump {t : Nat} (ht : target = some (.target t)) :
      Continues front σ i target t (front ++ [.jmp (quadLabel t)])
  | branch {relation : Relation} {f : Flags} {t : Nat} (hflags : σ.flags = some f)
      (ht : target = some (.target t)) :
      Continues front σ i target (if f.holds relation then t else i + 1)
        (front ++ [.jcc relation (quadLabel t)])

section Performs

variable (image : Image) (base : Nat → Word) (depth : Nat)

/-- Lines have the effect of a quad and lead to what comes next. -/
def Performs (l : Layout) (literals : List String) (q : Quad) (i : Nat)
    (lines : List Instruction) : Prop :=
  ∀ (σ : Processor) (o : Outcome), σ.Running base depth →
    l.effect? base σ.store image literals q i = some o →
    ∃ front σ', σ.runAll? image front = some σ' ∧ σ.Performed o σ' ∧
      Continues front σ' i q.output o.next lines

variable {image base depth} {find : Store → Option Word} {place : Store → Option (Ty × Word)}
  {l l' : List Instruction} {r : Register}

/-- A word that was computed in scratch registers is stored. -/
theorem Finds.writes (h : Finds image base depth scratch find (·.registers r) l)
    (h' : Writes image base depth place r l') {ty : Ty} (hσ : σ.Running base depth)
    (hw : find σ.store = some w) (ha : place σ.store = some (ty, a)) (i : Nat) :
    ∃ σ', σ.runAll? image (l ++ l') = some σ' ∧
      σ.Performed ⟨i, σ.store.write ty a w, none⟩ σ' := by
  obtain ⟨σ1, hrun, hkeeps, rfl⟩ := h σ w hσ hw
  rw [← hkeeps.store] at ha
  obtain ⟨σ2, hrun', hregisters, hstore⟩ := h' σ1 ty a (hσ.of_keeps hkeeps (by decide)) ha
  refine ⟨σ2, runAll?_append hrun hrun', ?_, ?_, ?_, nofun⟩
  · rw [hstore, hkeeps.store]
  · rw [hregisters _ (by decide), hkeeps.registers _ (by decide)]
  · rw [hregisters _ (by decide), hkeeps.registers _ (by decide)]

section Operands

variable {find' : Store → Option Word}

variable (h : Finds image base depth [.esi, .edi, .eax] find (·.registers .eax) l)

include h

/-- Two operands are loaded one after the other. -/
theorem Finds.pair (h' : Finds image base depth [.esi, .edi, .edx] find' (·.registers .edx) l')
    (hσ : σ.Running base depth) (ha : find σ.store = some a) (hb : find' σ.store = some b) :
    ∃ σ', σ.runAll? image (l ++ l') = some σ' ∧
      σ.Keeps scratch σ' ∧ σ'.registers .eax = a ∧ σ'.registers .edx = b := by
  obtain ⟨σ1, hrun, hkeeps, rfl⟩ := h σ a hσ ha
  rw [← hkeeps.store] at hb
  obtain ⟨σ2, hrun', hkeeps', rfl⟩ := h' σ1 b (hσ.of_keeps hkeeps (by decide)) hb
  refine ⟨σ2, runAll?_append hrun hrun', ?_, hkeeps'.registers _ (by decide), rfl⟩
  exact (hkeeps.mono (by decide)).trans (hkeeps'.mono (by decide))

omit h in
/-- Sums, differences and products. -/
theorem exec?_arithInstruction (hdiv : operator ≠ .div) (hmod : operator ≠ .mod)
    (hw : operator.compute? (σ.registers .eax) (σ.registers .edx) = some w) :
    (arithInstruction operator).exec? image σ = some ((σ.set .eax w).withFlags none) := by
  cases operator with
  | div => exact absurd rfl hdiv
  | mod => exact absurd rfl hmod
  | _ =>
    cases hw
    rfl

theorem Finds.operate (h' : Finds image base depth [.esi, .edi, .edx] find' (·.registers .edx) l')
    (hdiv : operator ≠ .div) (hmod : operator ≠ .mod) :
    Finds image base depth scratch
      (fun s => (find s).bind fun a => (find' s).bind (operator.compute? a)) (·.registers .eax)
      (l ++ l' ++ [arithInstruction operator]) := by
  intro σ w hσ hw
  obtain ⟨a, ha, hw'⟩ := bind_eq_some_iff.mp hw
  obtain ⟨b, hb, hcompute⟩ := bind_eq_some_iff.mp hw'
  obtain ⟨σ', hrun, hkeeps, rfl, rfl⟩ := h.pair h' hσ ha hb
  refine ⟨_, runAll?_append hrun ((runAll?_singleton _).trans
    (exec?_arithInstruction hdiv hmod hcompute)), ?_, σ'.registers_set_self .eax w⟩
  exact hkeeps.trans ((Keeps.set (by decide) w).trans (.withFlags none))

/-- The dividend with its sign and the divisor are loaded one after the other. -/
theorem Finds.dividend (h' : Finds image base depth [.esi, .edi, .ebx] find' (·.registers .ebx) l')
    (hσ : σ.Running base depth) (ha : find σ.store = some a) (hb : find' σ.store = some b) :
    ∃ σ', σ.runAll? image (l ++ [.cdq] ++ l') = some σ' ∧
      σ.Keeps scratch σ' ∧ (Instruction.idiv .ebx).exec? image σ' =
        (compute? .div a b).bind fun q => (compute? .mod a b).map fun r =>
          ((σ'.set .eax q).set .edx r).withFlags none := by
  obtain ⟨σ1, hrun1, hkeeps1, hax1⟩ := h σ a hσ ha
  dsimp only at hax1
  have hkeeps2 : σ1.Keeps scratch (σ1.set .edx (if σ1.registers .eax < 0 then -1 else 0)) :=
    .set (by decide) _
  have hkeeps := (hkeeps1.mono (by decide)).trans hkeeps2
  rw [← hkeeps.store] at hb
  obtain ⟨σ3, hrun3, hkeeps3, hbx⟩ := h' _ b (hσ.of_keeps hkeeps (by decide)) hb
  have hax3 : σ3.registers .eax = a := by
    rw [hkeeps3.registers _ (by decide), registers_set_of_ne _ _ _ (by decide), hax1]
  have hdx3 : σ3.registers .edx = if a < 0 then -1 else 0 := by
    rw [hkeeps3.registers _ (by decide), registers_set_self, ← hax1]
  refine ⟨σ3, runAll?_append (runAll?_append hrun1 rfl) hrun3,
    hkeeps.trans (hkeeps3.mono (by decide)), ?_⟩
  have hwhole : Register.ebx.isWhole = true := rfl
  dsimp only at hbx
  rw [Instruction.exec?, if_pos hwhole, divide?_eq hax3 hdx3, hbx]

/-- Quotients and remainders, as far as they have a value. -/
theorem Finds.divide (h' : Finds image base depth [.esi, .edi, .ebx] find' (·.registers .ebx) l')
    {r : Register} (hr : operator = .div ∧ r = .eax ∨ operator = .mod ∧ r = .edx) :
    Finds image base depth scratch
      (fun s => (find s).bind fun a => (find' s).bind (operator.compute? a)) (·.registers r)
      (l ++ [.cdq] ++ l' ++ [.idiv .ebx]) := by
  intro σ w hσ hw
  obtain ⟨a, ha, hw'⟩ := bind_eq_some_iff.mp hw
  obtain ⟨b, hb, hcompute⟩ := bind_eq_some_iff.mp hw'
  -- quotient and remainder have values together
  obtain ⟨quotient, remainder, hquotient, hremainder, hresult⟩ : ∃ quotient remainder,
      compute? .div a b = some quotient ∧ compute? .mod a b = some remainder ∧
        (r = .eax ∧ quotient = w ∨ r = .edx ∧ remainder = w) := by
    by_cases htrap : b = 0 ∨ a = Int32.minValue ∧ b = -1
    · obtain ⟨rfl, -⟩ | ⟨rfl, -⟩ := hr <;> simp [compute?, htrap] at hcompute
    · refine ⟨a / b, a % b, if_neg htrap, if_neg htrap, ?_⟩
      obtain ⟨rfl, rfl⟩ | ⟨rfl, rfl⟩ := hr <;> simp_all [compute?]
  obtain ⟨σ3, hrun3, hkeeps, hdivide⟩ := h.dividend h' hσ ha hb
  rw [hquotient, hremainder] at hdivide
  refine ⟨((σ3.set .eax quotient).set .edx remainder).withFlags none, ?_, ?_, ?_⟩
  · exact runAll?_append hrun3 ((runAll?_singleton _).trans hdivide)
  · have hset : σ3.Keeps scratch ((σ3.set .eax quotient).set .edx remainder) :=
      (Keeps.set (by decide) _).trans (.set (by decide) _)
    exact hkeeps.trans (hset.trans (.withFlags none))
  · obtain ⟨rfl, rfl⟩ | ⟨rfl, rfl⟩ := hresult
    · exact (registers_set_of_ne _ .edx remainder (by decide)).trans
        (σ3.registers_set_self .eax _)
    · exact (σ3.set .eax quotient).registers_set_self .edx _

/-- The address of a cell of an array, from the number of the cell. -/
theorem Finds.element (h' : Finds image base depth [.esi, .edi] find' (·.registers .esi) l')
    (size : Nat) :
    Finds image base depth scratch
      (fun s => (find' s).bind fun start => (find s).map fun index => start + .ofNat size * index)
      (·.registers .eax)
      (l ++ [move .ecx (.immediate size), .imul .eax (.register .ecx)] ++ l' ++
        [.add .eax (.register .esi)]) := by
  intro σ w hσ hw
  obtain ⟨start, hstart, hw'⟩ := bind_eq_some_iff.mp hw
  obtain ⟨index, hindex, rfl⟩ := map_eq_some_iff.mp hw'
  obtain ⟨σ1, hrun1, hkeeps1, rfl⟩ := h σ index hσ hindex
  have hrun2 : σ1.runAll? image [move .ecx (.immediate size), .imul .eax (.register .ecx)] =
      some (((σ1.set .ecx (.ofInt size)).set .eax
        (σ1.registers .eax * .ofInt size)).withFlags none) := rfl
  have hkeeps2 : σ1.Keeps scratch (((σ1.set .ecx (.ofInt size)).set .eax
      (σ1.registers .eax * .ofInt size)).withFlags none) :=
    (Keeps.set (by decide) _).trans ((Keeps.set (by decide) _).trans (.withFlags _))
  have hkeeps := (hkeeps1.mono (by decide)).trans hkeeps2
  rw [← hkeeps.store] at hstart
  obtain ⟨σ3, hrun3, hkeeps3, rfl⟩ := h' _ start (hσ.of_keeps hkeeps (by decide)) hstart
  have hax3 : σ3.registers .eax = σ1.registers .eax * .ofInt size :=
    (hkeeps3.registers _ (by decide)).trans
      ((σ1.set .ecx (.ofInt size)).registers_set_self .eax _)
  refine ⟨(σ3.set .eax (σ3.registers .eax + σ3.registers .esi)).withFlags none, ?_, ?_, ?_⟩
  · exact runAll?_append (runAll?_append
      (runAll?_append hrun1 hrun2) hrun3) rfl
  · exact hkeeps.trans ((hkeeps3.mono (by decide)).trans
      ((Keeps.set (by decide) _).trans (.withFlags none)))
  · dsimp only
    rw [registers_withFlags, registers_set_self, hax3, Int32.ofInt_eq_ofNat,
      Int32.add_comm, Int32.mul_comm]

end Operands

end Performs

/-! ### Quads -/

section Quads

variable (image : Image) (base : Nat → Word) {depth lo : Nat} {site : FunctionSite}

theorem emit_adds (line : Instruction) : Adds (emit line) fun _ _ lines => lines = [line] :=
  adds_emit fun _ => rfl

variable (hsite : site.Reaching depth)

include hsite

theorem store_eax (o : Operand) :
    Adds (store site o .eax) fun _ _ lines => Writes image base depth
      (fun s => site.layout.place? base s o) .eax lines :=
  store_writes image base hsite o rfl rfl rfl (by decide)

theorem assign_performs {second : Option Operand} (i : Nat)
    (hy : y = .returnValue ∨ y.Writable site.env site.code lo) :
    Adds (quad site ⟨.assign, some x, second, some y⟩) fun strings _ lines =>
      Performs image base depth site.layout strings ⟨.assign, some x, second, some y⟩ i lines := by
  have hload := load_finds image base hsite x (r := .eax) rfl
  simp only [quad, required, pure_bind]
  obtain rfl | hwritable := hy
  · refine adds_bind hload (Q := fun _ _ _ lines => lines = []) (fun _ => adds_pure fun _ => rfl) ?_
    rintro strings _ _ l _ hl rfl σ o hσ ho
    obtain ⟨w, hw, rfl⟩ := effect?_returnValue.mp ho
    obtain ⟨σ', hrun, hkeeps, hax⟩ := hl σ w hσ hw
    rw [append_nil]
    refine ⟨l, σ', hrun, ⟨hkeeps.store, ?_, ?_, ?_⟩, .next⟩
    · exact hkeeps.registers _ (by decide)
    · exact hkeeps.registers _ (by decide)
    · intro w' hw'
      cases hw'
      exact hax
  · have hstored : Adds (do load site x .eax; store site y .eax) fun strings _ lines =>
        Performs image base depth site.layout strings
          ⟨.assign, some x, second, some y⟩ i lines := by
      refine (adds_seq hload (store_eax image base hsite y)).mono ?_
      rintro strings _ _ ⟨l, l', rfl, hl, hl'⟩ σ o hσ ho
      have hreturn : y ≠ .returnValue := by
        rintro rfl
        exact hwritable.1
      obtain ⟨w, ty, a, hw, ha, rfl⟩ := (effect?_assign hreturn).mp ho
      obtain ⟨σ', hrun, hperformed⟩ := (hl.mono (by decide)).writes hl' hσ hw ha (i + 1)
      exact ⟨_, σ', hrun, hperformed, .next⟩
    cases y with
    | returnValue => exact hwritable.1.elim
    | _ => exact hstored

theorem arith_performs (operator : Arith) {z : Operand} (i : Nat) :
    Adds (quad site ⟨.arith operator, some x, some y, some z⟩) fun strings _ lines =>
      Performs image base depth site.layout strings
        ⟨.arith operator, some x, some y, some z⟩ i lines := by
  -- the result is stored from the register that it is computed in
  have hfinish : ∀ {strings l l' r}, Finds image base depth scratch
      (fun s => (site.layout.value? base s x).bind fun a =>
        (site.layout.value? base s y).bind (operator.compute? a)) (·.registers r) l →
      Writes image base depth (fun s => site.layout.place? base s z) r l' →
      Performs image base depth site.layout strings
        ⟨.arith operator, some x, some y, some z⟩ i (l ++ l') := by
    intro strings l l' r hl hl' σ o hσ ho
    obtain ⟨a, b, w, ty, target, ha, hb, hw, htarget, rfl⟩ := effect?_arith.mp ho
    have hfind : (site.layout.value? base σ.store x).bind (fun a =>
        (site.layout.value? base σ.store y).bind (operator.compute? a)) = some w := by
      rw [ha, bind_some, hb, bind_some, hw]
    obtain ⟨σ', hrun, hperformed⟩ := hl.writes hl' hσ hfind htarget (i + 1)
    exact ⟨_, σ', hrun, hperformed, .next⟩
  have hload := load_finds image base hsite x (r := .eax) rfl
  have hcompute : operator ≠ .div → operator ≠ .mod → Adds (do
      load site x .eax
      load site y .edx
      emit (arithInstruction operator)
      store site z .eax) fun strings _ lines =>
        Performs image base depth site.layout strings
          ⟨.arith operator, some x, some y, some z⟩ i lines := by
    intro hdiv hmod
    refine (adds_seq hload (adds_seq (load_finds image base hsite y (r := .edx) rfl)
      (adds_seq (emit_adds _) (store_eax image base hsite z)))).mono ?_
    rintro strings _ _ ⟨l, _, rfl, hl, l', _, rfl, hl', _, l'', rfl, rfl, hl''⟩
    rw [← append_assoc l', ← append_assoc l, ← append_assoc l]
    exact hfinish (hl.operate hl' hdiv hmod) hl''
  have hdivide : ∀ {r : Register}, operator = .div ∧ r = .eax ∨ operator = .mod ∧ r = .edx →
      (Adds (store site z r) fun _ _ lines => Writes image base depth
        (fun s => site.layout.place? base s z) r lines) →
      Adds (do
        load site x .eax
        emit .cdq
        load site y .ebx
        emit (.idiv .ebx)
        store site z r) fun strings _ lines =>
          Performs image base depth site.layout strings
            ⟨.arith operator, some x, some y, some z⟩ i lines := by
    intro r hr hstore
    refine (adds_seq hload (adds_seq (emit_adds _) (adds_seq
      (load_finds image base hsite y (r := .ebx) rfl)
      (adds_seq (emit_adds _) hstore)))).mono ?_
    rintro strings _ _ ⟨l, _, rfl, hl, _, _, rfl, rfl, l', _, rfl, hl', _, l'', rfl, rfl, hl''⟩
    have hlines : l ++ ([.cdq] ++ (l' ++ ([.idiv .ebx] ++ l''))) =
        l ++ [.cdq] ++ l' ++ [.idiv .ebx] ++ l'' := by simp only [append_assoc]
    rw [hlines]
    exact hfinish (hl.divide hl' hr) hl''
  cases operator with
  | div => exact hdivide (.inl ⟨rfl, rfl⟩) (store_eax image base hsite z)
  | mod =>
    exact hdivide (.inr ⟨rfl, rfl⟩) (store_writes image base hsite z rfl rfl rfl (by decide))
  | _ => exact hcompute nofun nofun

theorem array_performs {n : Nat} (i : Nat) (hn : site.code.temps[n]? = some .int) :
    Adds (quad site ⟨.array, some x, some y, some (.cell n)⟩) fun strings _ lines =>
      Performs image base depth site.layout strings
        ⟨.array, some x, some y, some (.cell n)⟩ i lines := by
  simp only [quad, required, pure_bind]
  cases hinfo : site.code.cell? n with
  | none => exact adds_throw _
  | some info =>
    dsimp only
    refine (adds_seq (load_finds image base hsite y (r := .eax) rfl) (adds_seq (emit_adds _)
      (adds_seq (emit_adds _) (adds_seq (address_finds image base hsite x)
        (adds_seq (emit_adds _) (store_eax image base hsite (.temp n))))))).mono ?_
    rintro strings _ _ ⟨l, _, rfl, hl, _, _, rfl, rfl, _, _, rfl, rfl, l', _, rfl, hl', _, l'', rfl,
      rfl, hl''⟩ σ o hσ ho
    obtain ⟨info', start, index, a, hinfo', hstart, hindex, ha, rfl⟩ := effect?_array.mp ho
    obtain rfl : info = info' := some.inj (hinfo.symm.trans hinfo')
    have hplace : site.layout.place? base σ.store (.temp n) = some (.int, a) :=
      place?_temp_eq_some.mpr ⟨hn, ha⟩
    obtain ⟨σ', hrun, hperformed⟩ := (hl.element hl' info.element.size).writes hl'' hσ
      (by rw [hstart, bind_some, hindex, map_some]) hplace (i + 1)
    refine ⟨_, σ', hrun, hperformed, ?_⟩
    simp only [append_assoc, cons_append, nil_append]
    exact .next

theorem compare_performs (relation : Relation) (t i : Nat) :
    Adds (quad site ⟨.compare relation, some x, some y, some (.target t)⟩) fun strings _ lines =>
      Performs image base depth site.layout strings
        ⟨.compare relation, some x, some y, some (.target t)⟩ i lines := by
  simp only [quad, jumpLabel, required, pure_bind]
  refine (adds_seq (load_finds image base hsite x (r := .eax) rfl) (adds_seq
    (load_finds image base hsite y (r := .edx) rfl) (adds_seq (emit_adds _) (emit_adds _)))).mono ?_
  rintro strings _ _ ⟨l, _, rfl, hl, l', _, rfl, hl', _, _, rfl, rfl, rfl⟩ σ o hσ ho
  obtain ⟨a, b, ha, hb, rfl⟩ := effect?_compare.mp ho
  obtain ⟨σ', hrun, hkeeps, rfl, rfl⟩ := hl.pair hl' hσ ha hb
  refine ⟨l ++ l' ++ [.cmp .eax .edx], σ'.withFlags (some (.ofComparison (σ'.registers .eax)
    (σ'.registers .edx))), runAll?_append hrun rfl, ⟨hkeeps.store, ?_, ?_, nofun⟩, ?_⟩
  · exact hkeeps.registers _ (by decide)
  · exact hkeeps.registers _ (by decide)
  · dsimp only
    rw [← Flags.holds_ofComparison]
    have hlines : l ++ (l' ++ ([.cmp .eax .edx] ++ [.jcc relation (quadLabel t)])) =
        l ++ l' ++ [.cmp .eax .edx] ++ [.jcc relation (quadLabel t)] := by
      simp only [append_assoc]
    rw [hlines]
    exact .branch (flags_withFlags ..) rfl

theorem quad_performs {q : Quad} (hop : q.op.IsInner) (hq : q.WellFormed site.env site.code lo)
    (hpending : q.output ≠ some .pending) (i : Nat) :
    Adds (quad site q) fun strings _ lines => Performs image base depth site.layout strings
      q i lines := by
  obtain ⟨op, first, second, output⟩ := q
  cases op with
  | assign =>
    obtain ⟨x, o, rfl, -, rfl, ho⟩ := hq
    exact assign_performs image base hsite i ho
  | array =>
    obtain ⟨x, y, n, rfl, -, rfl, -, rfl, -, hn, -⟩ := hq
    exact array_performs image base hsite i hn
  | arith operator =>
    obtain ⟨x, y, n, rfl, -, rfl, -, rfl, -⟩ := hq
    exact arith_performs image base hsite operator i
  | jump =>
    obtain ⟨t, rfl⟩ := hq.resolve_left hpending
    refine (emit_adds (.jmp (quadLabel t))).mono ?_
    rintro strings _ _ rfl σ o hσ ho
    obtain rfl := effect?_jump.mp ho
    exact ⟨[], σ, rfl, ⟨rfl, rfl, rfl, nofun⟩, .jump rfl⟩
  | compare relation =>
    obtain ⟨htarget, x, y, rfl, -, rfl, -⟩ := hq
    obtain ⟨t, rfl⟩ := htarget.resolve_left hpending
    exact compare_performs image base hsite relation t i
  | _ => exact hop.elim

end Quads

end Lower

end BlockLang
