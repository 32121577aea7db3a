import BlockLang.Proofs.Emit.Step
import BlockLang.Proofs.Environment
import BlockLang.Proofs.Frame

/-!
# Lowering succeeds

The quads of a function can be lowered if they are well formed and none of them is
pending: every operand has the value, the place or the address that is asked for.
Between the quads of a call the arguments are remembered, and the call takes them,
so that nothing is remembered when the function ends.
-/

namespace BlockLang

open EStateM.Result Environment FunctionSite List Operand

variable {a : Assembly} {c : Code} {env : Environment} {callee : FunctionLabel} {i lo n : Nat}
  {o x : Operand} {low r : Register}

/-- The variables of a function and its temporaries, those from `lo` on, have places
in its frame. -/
structure FunctionSite.Sound (site : FunctionSite) (lo : Nat) : Prop where
  env : site.env.Sound
  variable_placed : ∀ v ∈ site.env.locals site.env.scope,
    (site.frame.variableOffset? v.name).isSome
  temp_placed : ∀ n, lo ≤ n → n < site.code.temps.size → (site.frame.tempOffset? n).isSome

/-- An operand has a place in memory: it is a variable, a cell or a temporary. -/
def Operand.Stored (env : Environment) (c : Code) (lo : Nat) (o : Operand) : Prop :=
  o.Located env c lo ∧ (∀ s, o ≠ .string s) ∨ ∃ n, o = .temp n ∧ (temp n).Readable env c lo

theorem Operand.Writable.stored (h : o.Writable env c lo) : o.Stored env c lo := by
  refine .inl ⟨h.2, ?_⟩
  rintro t rfl
  exact h.1

namespace Assembly

/-- Nothing is remembered for a call. -/
def Idle (a : Assembly) : Prop := a.arguments = [] ∧ a.destination = none

/-- The arguments that are remembered can be passed, and the result of the call can be
stored. -/
structure Prepared (a : Assembly) (site : FunctionSite) (lo : Nat) : Prop where
  arguments : ∀ x ∈ a.arguments,
    if x.byReference then x.value.Located site.env site.code lo
    else x.value.Readable site.env site.code lo
  destination : ∀ o, a.destination = some o →
    ∃ n, o = .temp n ∧ (temp n).Readable site.env site.code lo

theorem Idle.prepared (h : a.Idle) (site : FunctionSite) (lo : Nat) : a.Prepared site lo where
  arguments x hx := by
    rw [h.1] at hx
    cases hx
  destination o ho := by
    rw [h.2] at ho
    cases ho

theorem Prepared.congr {a' : Assembly} {site : FunctionSite} (h : a.Prepared site lo)
    (harguments : a'.arguments = a.arguments) (hdestination : a'.destination = a.destination) :
    a'.Prepared site lo :=
  ⟨harguments ▸ h.arguments, hdestination ▸ h.destination⟩

end Assembly

namespace Lower

/-! ### Quiet steps -/

/-- A step succeeds and leaves alone what is remembered for a call. -/
def Quiet {α : Type} (x : Lower α) : Prop :=
  ∀ a, ∃ b a', x a = .ok b a' ∧ a'.arguments = a.arguments ∧ a'.destination = a.destination

section Quiet

variable {α β : Type} {x : Lower α} {f : α → Lower β}

theorem quiet_pure (b : α) : Quiet (pure b : Lower α) := fun a => ⟨b, a, rfl, rfl, rfl⟩

theorem quiet_bind (hx : Quiet x) (hf : ∀ b, Quiet (f b)) : Quiet (x >>= f) := by
  intro a
  obtain ⟨b, a1, hb, harg1, hdest1⟩ := hx a
  obtain ⟨c, a2, hc, harg2, hdest2⟩ := hf b a1
  exact ⟨c, a2, (bind_of_ok hb).trans hc, harg2.trans harg1, hdest2.trans hdest1⟩

/-- What comes after a quiet step starts with the same things remembered. -/
theorem exists_of_quiet {P : β → Assembly → Prop} (hx : Quiet x)
    (hf : ∀ b a', a'.arguments = a.arguments → a'.destination = a.destination →
      ∃ c a'', f b a' = .ok c a'' ∧ P c a'') : ∃ c a'', (x >>= f) a = .ok c a'' ∧ P c a'' := by
  obtain ⟨b, a', hb, harguments, hdestination⟩ := hx a
  obtain ⟨c, a'', hc, hP⟩ := hf b a' harguments hdestination
  exact ⟨c, a'', (bind_of_ok hb).trans hc, hP⟩

theorem quiet_ite {c : Prop} [Decidable c] {y : Lower α} (hx : Quiet x) (hy : Quiet y) :
    Quiet (if c then x else y) := by
  split
  · exact hx
  · exact hy

theorem quiet_emit (line : Instruction) : Quiet (emit line) := fun _ => ⟨_, _, rfl, rfl, rfl⟩

theorem quiet_emitAll (lines : List Instruction) : Quiet (emitAll lines) :=
  fun _ => ⟨_, _, rfl, rfl, rfl⟩

theorem quiet_stringNumber (s : String) : Quiet (stringNumber s) := by
  intro a
  cases hs : a.strings.idxOf? s with
  | some n =>
    refine ⟨n, a, ?_, rfl, rfl⟩
    change ok _ _ = _
    rw [hs]
  | none =>
    refine ⟨a.strings.size, { a with strings := a.strings.push s }, ?_, rfl, rfl⟩
    change ok _ _ = _
    rw [hs]

end Quiet

/-! ### Operands -/

section Operands

variable {site : FunctionSite} {lo : Nat}

theorem quiet_typeOf (h : o.Readable site.env site.code lo) : Quiet (typeOf site o) := by
  cases o with
  | temp n =>
    obtain ⟨-, ty, hty, -⟩ := h
    rw [typeOf, hty]
    exact quiet_pure _
  | cell n =>
    obtain ⟨info, hinfo⟩ := Option.isSome_iff_exists.mp h.2.2
    rw [typeOf, hinfo]
    exact quiet_pure _
  | name x =>
    obtain ⟨⟨d, s⟩, hfind, hd⟩ := h
    rw [typeOf, hfind]
    cases d with
    | fn f => exact hd.elim
    | _ => exact quiet_pure _
  | int value => exact quiet_pure _
  | char byte => exact quiet_pure _
  | _ => exact h.elim

variable (hsite : site.Sound lo)

include hsite

theorem quiet_tempSlot {ty : Ty} (hlo : lo ≤ n) (hn : site.code.temps[n]? = some ty) :
    Quiet (tempSlot site n) := by
  have hlt := (Array.getElem?_eq_some_iff.mp hn).1
  obtain ⟨offset, hoffset⟩ := Option.isSome_iff_exists.mp (hsite.temp_placed n hlo hlt)
  rw [tempSlot, hoffset]
  exact quiet_pure _

omit hsite in
/-- A variable has an offset in the frame of its scope. -/
theorem variableOffset?_isSome (hsite : site.Sound lo) {x : String} {v : Variable} {s : Int}
    (h : site.env.find? x = some ⟨.var v, s⟩) : (variableOffset? site s x).isSome := by
  have hname : v.name = x := name_of_find? h
  have hmem := mem_locals_of_find? h
  unfold variableOffset?
  split
  -- the frame of the function itself, then those around it
  · rename_i hhops
    have hs : s = site.env.scope := by
      unfold hops at hhops
      omega
    rw [← hname]
    exact hsite.variable_placed v (hs ▸ hmem)
  · obtain ⟨frame, hframe⟩ := Option.isSome_iff_exists.mp (hsite.env.fits s)
    rw [hframe, Option.bind_some, ← hname]
    exact Frame.variableOffset?_isSome hframe hmem

omit hsite in
/-- A parameter has a position among those of its scope. -/
theorem findIdx?_parameters_isSome {x : String} {q : Parameter} {s : Int}
    (h : env.find? x = some ⟨.param q, s⟩) :
    ((env.parameters s).findIdx? fun q => q.name = x).isSome := by
  rw [findIdx?_isSome, any_eq_true]
  exact ⟨q, mem_parameters_of_find? h, decide_eq_true (name_of_find? h)⟩

theorem quiet_named {x : String} (h : site.env.Holds x) : Quiet (named site x) := by
  obtain ⟨⟨d, s⟩, hfind, hd⟩ := h
  unfold named
  rw [hfind]
  cases d with
  | var v =>
    obtain ⟨offset, hoffset⟩ := Option.isSome_iff_exists.mp (variableOffset?_isSome hsite hfind)
    simp only [hoffset]
    refine quiet_ite (quiet_bind (quiet_pure _) fun _ => quiet_pure _) ?_
    refine quiet_bind (quiet_emitAll _) fun _ => ?_
    exact quiet_bind (quiet_pure _) fun _ => quiet_pure _
  | param q =>
    obtain ⟨position, hposition⟩ := Option.isSome_iff_exists.mp (findIdx?_parameters_isSome hfind)
    simp only [hposition]
    refine quiet_ite (quiet_bind (quiet_pure _) fun frame => ?_)
      (quiet_bind (quiet_emitAll _) fun _ => quiet_bind (quiet_pure _) fun frame => ?_)
    all_goals exact quiet_ite (quiet_bind (quiet_emit _) fun _ => quiet_pure _) (quiet_pure _)
  | fn f => exact absurd rfl (hd f)

/-- The memory of an operand that is neither a literal nor a string. -/
theorem quiet_memory (h : o.Stored site.env site.code lo) : Quiet (memory site o) := by
  obtain ⟨hlocated, hstring⟩ | ⟨n, rfl, hlo, ty, hn, -⟩ := h
  · cases o with
    | cell n =>
      refine quiet_bind (quiet_tempSlot hsite hlocated.1 hlocated.2.1) fun _ => ?_
      exact quiet_bind (quiet_emit _) fun _ => quiet_pure _
    | name x => exact quiet_named hsite hlocated
    | string s => exact absurd rfl (hstring s)
    | _ => exact hlocated.elim
  · exact quiet_tempSlot hsite hlo hn

omit hsite in
theorem readable_cases (h : o.Readable env c lo) :
    (∃ value, o = .int value) ∨ (∃ byte, o = .char byte) ∨ o.Stored env c lo := by
  cases o with
  | temp n => exact .inr (.inr (.inr ⟨n, rfl, h⟩))
  | cell n => exact .inr (.inr (.inl ⟨h, nofun⟩))
  | name x => exact .inr (.inr (.inl ⟨h.holds, nofun⟩))
  | int value => exact .inl ⟨value, rfl⟩
  | char byte => exact .inr (.inl ⟨byte, rfl⟩)
  | _ => exact h.elim

theorem quiet_load (h : o.Readable site.env site.code lo) (r : Register) :
    Quiet (load site o r) := by
  obtain ⟨value, rfl⟩ | ⟨byte, rfl⟩ | hplace := readable_cases h
  · exact quiet_emit _
  · exact quiet_emit _
  · have hload : Quiet (do
        let ty ← typeOf site o
        let m ← memory site o
        if ty = .char then emit (.movzx r (.byte m)) else emit (.mov (.register r) (.dword m))) :=
      quiet_bind (quiet_typeOf h) fun ty => quiet_bind (quiet_memory hsite hplace) fun m =>
        quiet_ite (quiet_emit _) (quiet_emit _)
    cases o with
    | int value => exact quiet_emit _
    | char byte => exact quiet_emit _
    | _ => exact hload

theorem quiet_store (hread : o.Readable site.env site.code lo) (h : o.Stored site.env site.code lo)
    (hr : r.lowByte? = some low) : Quiet (store site o r) := by
  refine quiet_bind (quiet_typeOf hread) fun ty => quiet_bind (quiet_memory hsite h) fun m => ?_
  simp only [hr]
  exact quiet_ite (quiet_emit _) (quiet_emit _)

theorem quiet_storeTemp (h : (temp n).Readable site.env site.code lo)
    (hr : r.lowByte? = some low) : Quiet (store site (.temp n) r) :=
  quiet_store hsite h (.inr ⟨n, rfl, h⟩) hr

theorem quiet_address (h : o.Located site.env site.code lo) : Quiet (address site o) := by
  cases o with
  | string s => exact quiet_bind (quiet_stringNumber s) fun _ => quiet_emit _
  | cell n =>
    exact quiet_bind (quiet_memory hsite (.inl ⟨h, nofun⟩)) fun _ => quiet_emit _
  | name x =>
    exact quiet_bind (quiet_memory hsite (.inl ⟨h, nofun⟩)) fun _ => quiet_emit _
  | _ => exact h.elim

end Operands

/-! ### Calls -/

section Calls

variable {site : FunctionSite} {lo : Nat} {a : Assembly}

theorem quiet_pushArguments (hsite : site.Sound lo) {arguments : List Argument}
    (h : ∀ x ∈ arguments, if x.byReference then x.value.Located site.env site.code lo
      else x.value.Readable site.env site.code lo) : Quiet (pushArguments site arguments) := by
  induction arguments with
  | nil => exact quiet_pure ()
  | cons x xs ih =>
    obtain ⟨hx, hxs⟩ := forall_mem_cons.mp h
    refine quiet_bind (ih hxs) fun _ => ?_
    split at hx
    · rename_i href
      rw [if_pos href]
      exact quiet_bind (quiet_address hsite hx) fun _ => quiet_emit _
    · rename_i href
      rw [if_neg href]
      exact quiet_bind (quiet_load hsite hx _) fun _ => quiet_emit _

/-- The frame in which a visible function was declared can be reached. -/
theorem quiet_pushLink {depth : Int} (h : depth ≤ site.env.scope) :
    Quiet (pushLink site callee depth) := by
  have hnot : ¬ site.hops depth < 0 := by
    unfold hops
    omega
  unfold pushLink
  simp only [hnot, if_false]
  refine quiet_ite (quiet_emit _) ?_
  exact quiet_bind (quiet_emitAll _) fun _ => quiet_emit _

/-- When the arguments and the link have been pushed, the result can be stored. -/
theorem callAndStore_run (hsite : site.Sound lo) (callee : FunctionLabel) (words : Nat)
    (harguments : a.arguments = [])
    (h : ∀ o, a.destination = some o →
      ∃ n, o = .temp n ∧ (temp n).Readable site.env site.code lo) :
    ∃ u a', (do
      emit (.call callee.text)
      if 0 < words then
        emit (.add .esp (.immediate (Frame.argumentBytes words)))
      if let some destination ← takeDestination then
        store site destination .eax : Lower Unit) a = .ok u a' ∧ a'.Idle := by
  -- the instructions in front do not change what is remembered
  have hstore : ∀ a1 : Assembly, a1.arguments = a.arguments → a1.destination = a.destination →
      ∃ u a', (do
        if let some destination ← takeDestination then
          store site destination .eax : Lower Unit) a1 = .ok u a' ∧ a'.Idle := by
    intro a1 harg hdest
    have htake : takeDestination a1 = .ok a1.destination { a1 with destination := none } := rfl
    rw [bind_of_ok htake, hdest]
    cases hd : a.destination with
    | none => exact ⟨(), _, rfl, harg.trans harguments, rfl⟩
    | some o =>
      obtain ⟨n, rfl, hn⟩ := h o hd
      obtain ⟨u, a', hrun, harg', hdest'⟩ :=
        quiet_storeTemp (r := .eax) hsite hn rfl { a1 with destination := none }
      exact ⟨u, a', hrun, harg'.trans (harg.trans harguments), hdest'⟩
  refine exists_of_quiet (quiet_emit _) fun _ a1 harg1 hdest1 => ?_
  dsimp only
  split
  · refine exists_of_quiet (quiet_emit _) fun _ a2 harg2 hdest2 => ?_
    exact hstore a2 (harg2.trans harg1) (hdest2.trans hdest1)
  · exact hstore a1 harg1 hdest1

/-- A call takes what has been remembered for it. -/
theorem call_run (hsite : site.Sound lo) (ha : a.Prepared site lo)
    (h : ∀ depth, callee.depth = some depth → depth ≤ site.env.scope) :
    ∃ u a', call site callee a = .ok u a' ∧ a'.Idle := by
  have htake : takeArguments a = .ok a.arguments { a with arguments := [] } := rfl
  unfold call
  rw [bind_of_ok htake]
  refine exists_of_quiet (quiet_pushArguments hsite ha.arguments) fun _ a1 harg1 hdest1 => ?_
  cases hd : callee.depth with
  | none =>
    refine exists_of_quiet (quiet_pure _) fun words a2 harg2 hdest2 => ?_
    refine callAndStore_run hsite callee words (harg2.trans harg1) fun o ho => ?_
    exact ha.destination o ((hdest2.trans hdest1).symm.trans ho)
  | some depth =>
    refine exists_of_quiet (quiet_pushLink (h depth hd)) fun _ a2 harg2 hdest2 => ?_
    refine exists_of_quiet (quiet_pure _) fun words a3 harg3 hdest3 => ?_
    refine callAndStore_run hsite callee words (harg3.trans (harg2.trans harg1)) fun o ho => ?_
    exact ha.destination o ((hdest3.trans (hdest2.trans hdest1)).symm.trans ho)

end Calls

/-! ### Quads -/

section Quads

variable {site : FunctionSite} {lo : Nat} {a : Assembly} {q : Quad}

theorem quiet_required {β : Type} {f : Operand → Lower β} (h : Quiet (f x)) :
    Quiet (required (some x) >>= f) := h

variable (hsite : site.Sound lo)

include hsite

theorem quiet_assign {second : Option Operand} (hx : x.Readable site.env site.code lo)
    (ho : o = .returnValue ∨ o.Writable site.env site.code lo) :
    Quiet (quad site ⟨.assign, some x, second, some o⟩) := by
  refine quiet_required (quiet_bind (quiet_load hsite hx _) fun _ => quiet_required ?_)
  obtain rfl | ho := ho
  · exact quiet_pure _
  · have hstore := quiet_store (r := .eax) hsite ho.1 ho.stored rfl
    cases o with
    | returnValue => exact ho.1.elim
    | _ => exact hstore

theorem quiet_array {i : Operand} (hx : x.Located site.env site.code lo)
    (hi : i.Readable site.env site.code lo) (hn : (cell n).Readable site.env site.code lo) :
    Quiet (quad site ⟨.array, some x, some i, some (.cell n)⟩) := by
  obtain ⟨hlo, hty, hsome⟩ := hn
  obtain ⟨info, hinfo⟩ := Option.isSome_iff_exists.mp hsome
  have hstore := quiet_storeTemp (r := .eax) (n := n) hsite ⟨hlo, _, hty, nofun⟩ rfl
  simp only [quad, required, pure_bind, hinfo]
  refine quiet_bind (quiet_load hsite hi _) fun _ => quiet_bind (quiet_emit _) fun _ => ?_
  refine quiet_bind (quiet_emit _) fun _ => quiet_bind (quiet_address hsite hx) fun _ => ?_
  exact quiet_bind (quiet_emit _) fun _ => hstore

theorem quiet_arith (operator : Arith) {y : Operand} (hx : x.Readable site.env site.code lo)
    (hy : y.Readable site.env site.code lo) (hn : (temp n).Readable site.env site.code lo) :
    Quiet (quad site ⟨.arith operator, some x, some y, some (.temp n)⟩) := by
  have hcompute : ∀ line, Quiet (do
      load site x .eax
      load site y .edx
      emit line
      store site (.temp n) .eax) := fun line =>
    quiet_bind (quiet_load hsite hx _) fun _ => quiet_bind (quiet_load hsite hy _) fun _ =>
      quiet_bind (quiet_emit _) fun _ => quiet_storeTemp hsite hn rfl
  have hdivide : ∀ {r low : Register}, r.lowByte? = some low → Quiet (do
      load site x .eax
      emit .cdq
      load site y .ebx
      emit (.idiv .ebx)
      store site (.temp n) r) := fun hr =>
    quiet_bind (quiet_load hsite hx _) fun _ => quiet_bind (quiet_emit _) fun _ =>
      quiet_bind (quiet_load hsite hy _) fun _ => quiet_bind (quiet_emit _) fun _ =>
        quiet_storeTemp hsite hn hr
  cases operator with
  | div => exact hdivide (r := .eax) rfl
  | mod => exact hdivide (r := .edx) rfl
  | _ => exact hcompute _

/-- A well-formed quad whose jump is not pending can be lowered. -/
theorem quad_run (ha : a.Prepared site lo) (hq : q.WellFormed site.env site.code lo)
    (hpending : q.output ≠ some .pending) :
    ∃ u a', quad site q a = .ok u a' ∧ a'.Prepared site lo ∧
      (q.op = .par ∨ a'.Idle ∨
        q.op ≠ .call ∧ a'.arguments = a.arguments ∧ a'.destination = a.destination) := by
  obtain ⟨op, first, second, output⟩ := q
  -- all quads but those of calls leave alone what is remembered
  have hquiet : op ≠ .call → Quiet (quad site ⟨op, first, second, output⟩) →
      ∃ u a', quad site ⟨op, first, second, output⟩ a = .ok u a' ∧ a'.Prepared site lo ∧
        (op = .par ∨ a'.Idle ∨
          op ≠ .call ∧ a'.arguments = a.arguments ∧ a'.destination = a.destination) := by
    intro hop h
    obtain ⟨u, a', hrun, harg, hdest⟩ := h a
    exact ⟨u, a', hrun, ha.congr harg hdest, .inr (.inr ⟨hop, harg, hdest⟩)⟩
  cases op with
  | unit => exact hquiet nofun (quiet_emitAll _)
  | endUnit => exact hquiet nofun (quiet_emitAll _)
  | ret => exact hquiet nofun (quiet_emit _)
  | assign =>
    obtain ⟨x, o, rfl, hx, rfl, ho⟩ := hq
    exact hquiet nofun (quiet_assign hsite hx ho)
  | array =>
    obtain ⟨x, i, n, rfl, hx, rfl, hi, rfl, hn⟩ := hq
    exact hquiet nofun (quiet_array hsite hx hi hn)
  | arith operator =>
    obtain ⟨x, y, n, rfl, hx, rfl, hy, rfl, hn⟩ := hq
    exact hquiet nofun (quiet_arith hsite operator hx hy hn)
  | jump =>
    obtain ⟨t, rfl⟩ := hq.resolve_left hpending
    exact hquiet nofun (quiet_emit _)
  | compare relation =>
    obtain ⟨htarget, x, y, rfl, hx, rfl, hy⟩ := hq
    obtain ⟨t, rfl⟩ := htarget.resolve_left hpending
    refine hquiet nofun (quiet_bind (x := jumpLabel _) (quiet_pure _) fun label => ?_)
    refine quiet_required (quiet_bind (quiet_load hsite hx _) fun _ => ?_)
    refine quiet_required (quiet_bind (quiet_load hsite hy _) fun _ => ?_)
    exact quiet_bind (quiet_emit _) fun _ => quiet_emit _
  | par =>
    obtain ⟨-, x, rfl, ⟨rfl, hx⟩ | ⟨rfl, hx⟩ | ⟨rfl, n, rfl, hn⟩⟩ := hq
    · refine ⟨(), _, rfl, ⟨?_, ha.destination⟩, .inl rfl⟩
      exact forall_mem_append.mpr ⟨ha.arguments,
        forall_mem_singleton.mpr (hx hsite.env.scalars)⟩
    · refine ⟨(), _, rfl, ⟨?_, ha.destination⟩, .inl rfl⟩
      exact forall_mem_append.mpr ⟨ha.arguments, forall_mem_singleton.mpr hx⟩
    · refine ⟨(), _, rfl, ⟨ha.arguments, fun o ho => ?_⟩, .inl rfl⟩
      cases ho
      exact ⟨n, rfl, hn⟩
  | call =>
    obtain ⟨l, rfl, b, hb, hdepth⟩ := hq
    -- what is visible was declared in this scope or around it
    have hvisible : ∀ depth, l.depth = some depth → depth ≤ site.env.scope := fun depth hd =>
      hdepth depth hd ▸ hsite.env.scope_le b hb
    obtain ⟨u, a', hrun, hidle⟩ := call_run hsite ha hvisible
    exact ⟨u, a', hrun, hidle.prepared site lo, .inr (.inl hidle)⟩

/-- The label in front of a jump target does not matter. -/
theorem numbered_run (ha : a.Prepared site lo) (hq : q.WellFormed site.env site.code lo)
    (hpending : q.output ≠ some .pending) (n : Nat) :
    ∃ u a', numbered site q n a = .ok u a' ∧ a'.Prepared site lo ∧
      (q.op = .par ∨ a'.Idle ∨
        q.op ≠ .call ∧ a'.arguments = a.arguments ∧ a'.destination = a.destination) := by
  unfold numbered
  dsimp only
  split
  · refine exists_of_quiet (quiet_emit _) fun _ a1 harg hdest => ?_
    obtain ⟨u, a', hrun, hprepared, hcases⟩ :=
      quad_run hsite (ha.congr harg hdest) hq hpending
    exact ⟨u, a', hrun, hprepared, by rwa [harg, hdest] at hcases⟩
  · exact quad_run hsite ha hq hpending

end Quads

/-! ### Functions -/

section Body

variable {site : FunctionSite} {lo : Nat} {a : Assembly}

/-- What every step of a numbered loop preserves, the loop preserves. -/
theorem forM_zipIdx_run {α : Type} {f : α × Nat → Lower Unit} {J : Nat → Assembly → Prop} :
    ∀ {xs : List α} {n : Nat} {a : Assembly},
      (∀ i x a, xs[i]? = some x → J (n + i) a → ∃ a', f (x, n + i) a = .ok () a' ∧
        J (n + i + 1) a') →
      J n a → ∃ a', (xs.zipIdx n).forM f a = .ok () a' ∧ J (n + xs.length) a'
  | [], n, a, _, ha => ⟨a, rfl, ha⟩
  | x :: xs, n, a, hf, ha => by
    obtain ⟨a1, h1, ha1⟩ := hf 0 x a rfl ha
    have hrest : ∀ i y b, xs[i]? = some y → J (n + 1 + i) b →
        ∃ b', f (y, n + 1 + i) b = .ok () b' ∧ J (n + 1 + i + 1) b' := by
      intro i y b hy hb
      have hstep := hf (i + 1) y b hy
      rw [Nat.add_comm i 1, ← Nat.add_assoc] at hstep
      exact hstep hb
    obtain ⟨a2, h2, ha2⟩ := forM_zipIdx_run hrest ha1
    refine ⟨a2, (bind_of_ok h1).trans h2, ?_⟩
    rwa [length_cons, Nat.add_comm xs.length 1, ← Nat.add_assoc]

/-- In front of a quad, whatever is remembered can be used, and if something is, the quad
belongs to a call. -/
def ReadyAt (site : FunctionSite) (lo i : Nat) (a : Assembly) : Prop :=
  a.Prepared site lo ∧
    (a.Idle ∨ ∃ q, site.code.quads[i]? = some q ∧ (q.op = .par ∨ q.op = .call))

theorem ReadyAt.idle (h : ReadyAt site lo i a) (hi : site.code.quads[i]? = none) : a.Idle := by
  refine h.2.resolve_right fun ⟨q, hq, _⟩ => ?_
  rw [hi] at hq
  cases hq

/-- A quad leads from one such moment to the next, if an argument is followed by its
call. -/
theorem numbered_readyAt (hsite : site.Sound lo) {q : Quad} (ha : ReadyAt site lo i a)
    (hq : site.code.quads[i]? = some q) (hwf : q.WellFormed site.env site.code lo)
    (hpending : q.output ≠ some .pending)
    (hcalls : q.op = .par → ∃ r, site.code.quads[i + 1]? = some r ∧ (r.op = .par ∨ r.op = .call)) :
    ∃ a', numbered site q i a = .ok () a' ∧ ReadyAt site lo (i + 1) a' := by
  obtain ⟨hprepared, hnext⟩ := ha
  obtain ⟨u, a', hrun, hprepared', hcases⟩ := numbered_run hsite hprepared hwf hpending i
  refine ⟨a', hrun, hprepared', ?_⟩
  by_cases hpar : q.op = .par
  · exact .inr (hcalls hpar)
  obtain hidle | ⟨hcall, harg, hdest⟩ := hcases.resolve_left hpar
  · exact .inl hidle
  -- a quad outside of calls only comes when nothing is remembered
  obtain hidle | ⟨r, hr, hop⟩ := hnext
  · exact .inl ⟨harg.trans hidle.1, hdest.trans hidle.2⟩
  · obtain rfl := Option.some.inj (hr.symm.trans hq)
    exact absurd hop (not_or.mpr ⟨hpar, hcall⟩)

/-- The quads of a function can be lowered if they are well formed, not pending, and
calls follow their arguments. In the end nothing is remembered. -/
theorem body_run (hsite : site.Sound lo) (ha : a.Idle)
    (hquads : ∀ i q, a.quadsDone ≤ i → site.code.quads[i]? = some q →
      q.WellFormed site.env site.code lo ∧ q.output ≠ some .pending)
    (hcalls : ∀ i q, a.quadsDone ≤ i → site.code.quads[i]? = some q → q.op = .par →
      ∃ r, site.code.quads[i + 1]? = some r ∧ (r.op = .par ∨ r.op = .call)) :
    ∃ a', body site a = .ok () a' ∧ a'.Idle ∧ a'.quadsDone = site.code.next ∧
      a'.tempsDone = site.code.temps.size := by
  have hstep : ∀ i q b, (site.code.quads.toList.drop a.quadsDone)[i]? = some q →
      ReadyAt site lo (a.quadsDone + i) b →
      ∃ b', numbered site q (a.quadsDone + i) b = .ok () b' ∧
        ReadyAt site lo (a.quadsDone + i + 1) b' := by
    intro i q b hq hb
    rw [getElem?_drop, Array.getElem?_toList] at hq
    have hle : a.quadsDone ≤ a.quadsDone + i := Nat.le_add_right _ _
    obtain ⟨hwf, hpending⟩ := hquads _ q hle hq
    exact numbered_readyAt hsite hb hq hwf hpending (hcalls _ q hle hq)
  obtain ⟨a1, hrun, hlast⟩ := forM_zipIdx_run (J := ReadyAt site lo)
    (f := fun x => numbered site x.1 x.2) hstep ⟨ha.prepared site lo, .inl ha⟩
  have hend : site.code.quads[a.quadsDone +
      (site.code.quads.toList.drop a.quadsDone).length]? = none := by
    rw [Array.getElem?_eq_none]
    simp only [length_drop, Array.length_toList]
    omega
  refine ⟨{ a1 with quadsDone := site.code.next, tempsDone := site.code.temps.size }, ?_,
    hlast.idle hend, rfl, rfl⟩
  rw [body_eq]
  exact bind_of_ok hrun

end Body

end Lower

end BlockLang
