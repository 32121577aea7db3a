import BlockLang.Proofs.Assembly.Lines
import BlockLang.Proofs.Processor.Layout

/-!
# What lowered operands do

The lines that lowering adds for an operand find its address, its value or its place.
They follow the links to the frame that the operand belongs to and read from memory, so
only the registers for addresses and the register for the value change. A store is the
one line that changes memory.
-/

namespace BlockLang

open Instruction Int32 Layout List Memory Option Processor Register

/-- The processor runs in a frame, and links lead out from it to the frames around it. -/
structure Processor.Running (base : Nat → Word) (depth : Nat) (σ : Processor) : Prop where
  frame : σ.registers .ebp = base 0
  links : ∀ k < depth, σ.store.read .int (base k + 8) = base (k + 1)

theorem Processor.Running.of_keeps {base : Nat → Word} {depth : Nat} {σ σ' : Processor}
    {rs : List Register} (h : σ.Running base depth) (hkeeps : σ.Keeps rs σ') (hrs : .ebp ∉ rs) :
    σ'.Running base depth where
  frame := (hkeeps.registers _ hrs).trans h.frame
  links k hk := by
    rw [hkeeps.store]
    exact h.links k hk

/-- The offsets that lowering works with. -/
def FunctionSite.layout (site : FunctionSite) : Layout :=
  ⟨site.code, site.env, Lower.variableOffset? site, site.env.parameters, site.frame.tempOffset?⟩

/-- Names stand for what lies in the frames that can be reached. -/
def FunctionSite.Reaching (site : FunctionSite) (depth : Nat) : Prop :=
  ∀ x b, site.env.find? x = some b → (∀ f, b.declaration ≠ .fn f) →
    0 ≤ site.hops b.scope ∧ (site.hops b.scope).toNat ≤ depth

namespace Lower

open Assembly

/-! ### Finding a word -/

section Finds

variable (image : Image) (base : Nat → Word) (depth : Nat)

/-- Lines find a word, which is then what `get` gives. They keep all registers but some. -/
def Finds (rs : List Register) (find : Store → Option Word) (get : Processor → Word)
    (lines : List Instruction) : Prop :=
  ∀ (σ : Processor) (w : Word), σ.Running base depth → find σ.store = some w →
    ∃ σ', σ.runAll? image lines = some σ' ∧ σ.Keeps rs σ' ∧ get σ' = w

variable {image base depth} {rs rs' : List Register} {find find' : Store → Option Word}
  {get get' : Processor → Word} {lines : List Instruction}

theorem Finds.mono (h : Finds image base depth rs find get lines) (hrs : rs ⊆ rs') :
    Finds image base depth rs' find get lines := by
  intro σ w hσ hw
  obtain ⟨σ', hrun, hkeeps, hget⟩ := h σ w hσ hw
  exact ⟨σ', hrun, hkeeps.mono hrs, hget⟩

/-- No line is needed for a word that is there already. -/
theorem finds_nil (h : ∀ σ w, σ.Running base depth → find σ.store = some w → get σ = w) :
    Finds image base depth rs find get [] := by
  intro σ w hσ hw
  exact ⟨σ, rfl, .refl rs σ, h σ w hσ hw⟩

/-- One more line finds a word from the one found before. -/
theorem Finds.snoc (h : Finds image base depth rs find get lines) (hrs : .ebp ∉ rs)
    {i : Instruction} {f : Store → Word → Word} {g : Processor → Word}
    (hi : ∀ σ w, σ.Running base depth → find σ.store = some w → get σ = w →
      ∃ σ', i.exec? image σ = some σ' ∧ σ.Keeps rs σ' ∧ g σ' = f σ.store w) :
    Finds image base depth rs (fun s => (find s).map (f s)) g (lines ++ [i]) := by
  intro σ w' hσ hw'
  obtain ⟨w, hw, rfl⟩ := map_eq_some_iff.mp hw'
  obtain ⟨σ1, hrun, hkeeps, hget⟩ := h σ w hσ hw
  obtain ⟨σ2, hexec, hkeeps', hget'⟩ :=
    hi σ1 w (hσ.of_keeps hkeeps hrs) (by rw [hkeeps.store]; exact hw) hget
  refine ⟨σ2, runAll?_append hrun ?_, hkeeps.trans hkeeps', ?_⟩
  · rw [runAll?_singleton, hexec]
  · rw [hget', hkeeps.store]

/-- What is found may be looked at in another way. -/
theorem Finds.view (h : Finds image base depth rs find get lines)
    (hview : ∀ s w', find' s = some w' → ∃ w, find s = some w ∧ ∀ σ, get σ = w → get' σ = w') :
    Finds image base depth rs find' get' lines := by
  intro σ w' hσ hw'
  obtain ⟨w, hw, hget'⟩ := hview σ.store w' hw'
  obtain ⟨σ', hrun, hkeeps, hget⟩ := h σ w hσ hw
  exact ⟨σ', hrun, hkeeps, hget' σ' hget⟩

/-- A register takes a word that stands in memory. -/
theorem exec?_move (image : Image) (σ : Processor) {r : Register} (hr : r.isWhole) (m : Memory) :
    (move r (.dword m)).exec? image σ =
      some (σ.set r (σ.store.read .int (σ.address m))) := by
  simp [move, exec?, hr, Value.word?]

/-- A register takes the word at an address that was found. -/
theorem Finds.read {m : Memory} (h : Finds image base depth rs find (·.address m) lines)
    (hrs : .ebp ∉ rs) {r : Register} (hr : r.isWhole) (hmem : r ∈ rs) :
    Finds image base depth rs (fun s => (find s).map (s.read .int)) (·.registers r)
      (lines ++ [move r (.dword m)]) := by
  refine h.snoc hrs fun σ w _ _ hget => ?_
  refine ⟨_, exec?_move image σ hr m, .set hmem _, ?_⟩
  rw [registers_set_self, hget]

/-- Links are followed out to the frame that is looked for. -/
theorem walk_finds (image : Image) (base : Nat → Word) {hops : Int} (hpos : 0 < hops)
    (hle : hops.toNat ≤ depth) : Adds (walk hops) fun _ _ lines =>
      Finds image base depth [.esi] (fun _ => some (base hops.toNat)) (·.registers .esi) lines := by
  refine adds_emitAll fun _ => ?_
  obtain ⟨n, rfl⟩ : ∃ n : Nat, hops = n + 1 := ⟨(hops - 1).toNat, by omega⟩
  have hn : ((n : Int) + 1).toNat = n + 1 := by omega
  have hlink : ∀ (σ : Processor) (r : Register),
      σ.address ⟨r, Frame.linkOffset⟩ = σ.registers r + 8 := fun _ _ => rfl
  rw [hn] at hle ⊢
  rw [Int.add_sub_cancel, Int.toNat_natCast]
  clear hpos hn
  -- each further link leads one frame out
  induction n with
  | zero =>
    intro σ w hσ hw
    cases hw
    refine ⟨σ.set .esi (base 1), ?_, .set (mem_singleton.mpr rfl) _,
      registers_set_self ..⟩
    rw [replicate_zero, runAll?_singleton, exec?_move image σ rfl, hlink, hσ.frame,
      hσ.links 0 hle]
  | succ n ih =>
    rw [replicate_succ', ← cons_append]
    have hnext := (ih (by omega)).snoc (i := move .esi (.dword ⟨.esi, Frame.linkOffset⟩))
      (g := (·.registers .esi)) (f := fun _ _ => base (n + 2)) (by decide)
      fun σ w hσ hw hget => by
        cases hw
        refine ⟨_, exec?_move image σ rfl _, .set (mem_singleton.mpr rfl) _, ?_⟩
        rw [registers_set_self, hlink, hget, hσ.links (n + 1) (by omega)]
    exact hnext

/-- The frame of a scope is the running one or found by its links. -/
theorem frame_adds (image : Image) (base : Nat → Word) {β : Type} {hops : Int} (hhops : 0 ≤ hops)
    (hdepth : hops.toNat ≤ depth)
    {f : Register → Lower β} {R : List String → β → List Instruction → Prop}
    (hf : ∀ frame, Adds (f frame) fun strings b lines' => ∀ lines,
      Finds image base depth [.esi] (fun _ => some (base hops.toNat)) (·.registers frame) lines →
        R strings b (lines ++ lines')) :
    Adds (if hops = 0 then f .ebp else do walk hops; f .esi) R := by
  refine adds_ite (fun hzero => ?_) fun hzero => ?_
  · refine (hf .ebp).mono fun strings b lines' h => h [] (finds_nil fun σ w hσ hw => ?_)
    cases hw
    rw [hzero]
    exact hσ.frame
  · refine adds_bind (walk_finds image base (by omega) hdepth) (fun _ => hf .esi) ?_
    intro strings _ b lines lines' hwalk h
    exact h lines hwalk

theorem frame_throw {β : Type} (hops : Int) (e : InternalError)
    {R : List String → β → List Instruction → Prop} :
    Adds (if hops = 0 then throw e else do walk hops; throw e) R :=
  adds_ite (fun _ => adds_throw e) fun _ =>
    adds_bind (basic_walk hops).adds (Q := fun _ _ _ _ => False) (fun _ => adds_throw e) nofun

end Finds

/-! ### Operands -/

section Operands

variable (image : Image) (base : Nat → Word) {depth : Nat} {site : FunctionSite}

/-- The type of an operand is that of the cell that it stands for. -/
theorem typeOf_adds (o : Operand) : Adds (typeOf site o) fun _ ty lines => lines = [] ∧
    ∀ s ty' a, site.layout.place? base s o = some (ty', a) → ty' = ty := by
  cases o with
  | temp n =>
    rw [typeOf]
    cases hty : site.code.temps[n]? with
    | none => exact adds_throw _
    | some ty =>
      refine adds_pure fun _ => ⟨rfl, fun s ty' a h => ?_⟩
      have hty' := (place?_temp_eq_some.mp h).1
      exact some.inj (hty'.symm.trans hty)
  | cell n =>
    rw [typeOf]
    cases hinfo : site.code.cell? n with
    | none => exact adds_throw _
    | some info =>
      refine adds_pure fun _ => ⟨rfl, fun s ty' a h => ?_⟩
      obtain ⟨info', t, hinfo', -, rfl, -⟩ := place?_cell_eq_some.mp h
      rw [some.inj (hinfo'.symm.trans hinfo)]
  | name x =>
    rw [typeOf]
    cases hb : site.env.find? x with
    | none => exact adds_throw _
    | some b =>
      obtain ⟨d, scope⟩ := b
      cases d with
      | var v =>
        refine adds_pure fun _ => ⟨rfl, fun s ty' a h => ?_⟩
        obtain ⟨offset, -, hplace⟩ := map_eq_some_iff.mp ((named?_var hb).symm.trans h)
        exact (congrArg Prod.fst hplace).symm
      | param q =>
        refine adds_pure fun _ => ⟨rfl, fun s ty' a h => ?_⟩
        obtain ⟨slot, -, hplace⟩ := map_eq_some_iff.mp ((named?_param hb).symm.trans h)
        exact (congrArg Prod.fst hplace).symm
      | fn f => exact adds_throw _
  | int value => exact adds_pure fun _ => ⟨rfl, fun _ _ _ h => by cases h⟩
  | char byte => exact adds_pure fun _ => ⟨rfl, fun _ _ _ h => by cases h⟩
  | _ => exact adds_throw _

theorem tempSlot_finds (depth n : Nat) : Adds (tempSlot site n) fun _ m lines =>
    Finds image base depth [.esi, .edi] (fun _ => site.layout.tempAddress? base n) (·.address m)
      lines := by
  unfold tempSlot
  cases hoffset : site.frame.tempOffset? n with
  | none => exact adds_throw _
  | some offset =>
    refine adds_pure fun _ => finds_nil fun σ w hσ hw => ?_
    have haddress : site.layout.tempAddress? base n = some (base 0 + .ofInt offset) :=
      congrArg (Option.map _) hoffset
    rw [address_mk, hσ.frame]
    exact some.inj (haddress.symm.trans hw)

/-- The offset of an argument may wrap around, as addresses do. -/
theorem ofInt_argumentOffset (i : Nat) :
    ofInt (Frame.argumentOffset i) = .ofNat (12 + 4 * i) := by
  rw [← ofInt_eq_ofNat, ← toInt_inj, toInt_ofInt, toInt_ofInt]
  exact Int.bmod_bmod

/-- The cell of a name is reached through the frame of its scope. -/
theorem named_finds (hsite : site.Reaching depth) (x : String) :
    Adds (named site x) fun _ m lines => Finds image base depth [.esi]
      (fun s => (site.layout.named? base s x).map Prod.snd) (·.address m) lines := by
  unfold named
  cases hb : site.env.find? x with
  | none => exact adds_throw _
  | some b =>
    obtain ⟨d, scope⟩ := b
    cases d with
    | var v =>
      obtain ⟨hhops, hdepth⟩ := hsite x _ hb nofun
      cases hoffset : variableOffset? site scope x with
      | none =>
        simp only [hoffset, pure_bind]
        exact frame_throw _ _
      | some offset =>
        simp only [hoffset, pure_bind]
        refine frame_adds image base (f := fun frame => pure (mk frame offset)) hhops hdepth
          fun frame => ?_
        refine adds_pure fun _ lines hframe => ?_
        rw [append_nil]
        refine hframe.view fun s w hw => ⟨_, rfl, fun σ hσ => ?_⟩
        have hvariable : site.layout.slot? scope x = some offset := hoffset
        rw [named?_var hb, hvariable] at hw
        cases hw
        dsimp only at hσ ⊢
        rw [address_mk, hσ]
        rfl
    | param q =>
      obtain ⟨hhops, hdepth⟩ := hsite x _ hb nofun
      cases hindex : (site.env.parameters scope).findIdx? fun q => q.name = x with
      | none =>
        simp only [hindex, pure_bind]
        exact frame_throw _ _
      | some i =>
        -- the argument is the cell or holds its address
        have hslot : ∀ frame lines, Finds image base depth [.esi]
            (fun _ => some (base (site.hops scope).toNat)) (·.registers frame) lines →
            Finds image base depth [.esi] (fun _ => site.layout.argumentAddress? base scope x)
              (·.address ⟨frame, Frame.argumentOffset i⟩) lines := by
          intro frame lines hframe
          refine hframe.view fun s w hw => ⟨_, rfl, fun σ hσ => ?_⟩
          have haddress : site.layout.argumentAddress? base scope x =
              some (base (site.hops scope).toNat + .ofNat (12 + 4 * i)) :=
            congrArg (Option.map _) hindex
          obtain rfl := some.inj (haddress.symm.trans hw)
          rw [address_mk, hσ, ofInt_argumentOffset]
        simp only [hindex, pure_bind]
        cases href : q.byReference with
        | true =>
          simp only [if_true]
          refine frame_adds image base (f := fun frame => do
            emit (move .esi (.dword ⟨frame, Frame.argumentOffset i⟩))
            pure (mk .esi 0)) hhops hdepth fun frame => ?_
          refine adds_bind (P := fun _ _ lines => lines = _) (adds_emit fun _ => rfl)
            (Q := fun _ _ m lines => m = ⟨.esi, 0⟩ ∧ lines = [])
            (fun _ => adds_pure fun _ => ⟨rfl, rfl⟩) ?_
          rintro _ _ _ _ _ rfl ⟨rfl, rfl⟩ lines hframe
          rw [append_nil]
          refine ((hslot frame lines hframe).read (by decide) rfl mem_cons_self).view ?_
          intro s w hw
          rw [named?_param hb, Option.map_map] at hw
          refine ⟨w, by simpa [href, Function.comp_def] using hw, fun σ hσ => ?_⟩
          rw [address_mk, hσ]
          exact Int32.add_zero w
        | false =>
          simp only [Bool.false_eq_true, if_false]
          refine frame_adds image base (f := fun frame => pure (mk frame (Frame.argumentOffset i)))
            hhops hdepth fun frame => adds_pure fun _ lines hframe => ?_
          rw [append_nil]
          refine (hslot frame lines hframe).view fun s w hw => ?_
          rw [named?_param hb, Option.map_map] at hw
          exact ⟨w, by simpa [href, Function.comp_def] using hw, fun σ hσ => hσ⟩
    | fn f =>
      simp only [pure_bind]
      exact frame_throw _ _

/-- The address of what an operand stands for is found. -/
theorem memory_finds (hsite : site.Reaching depth) (o : Operand) :
    Adds (memory site o) fun _ m lines => Finds image base depth [.esi, .edi]
      (fun s => (site.layout.place? base s o).map Prod.snd) (·.address m) lines := by
  cases o with
  | temp n =>
    refine (tempSlot_finds image base depth n).mono fun _ m lines h => ?_
    refine h.view fun s w hw => ?_
    obtain ⟨⟨ty, a⟩, hplace, rfl⟩ := map_eq_some_iff.mp hw
    exact ⟨a, (place?_temp_eq_some.mp hplace).2, fun σ hσ => hσ⟩
  | cell n =>
    refine adds_bind (tempSlot_finds image base depth n)
      (Q := fun m _ m' lines => m' = ⟨.edi, 0⟩ ∧ lines = [move .edi (.dword m)]) (fun m => ?_) ?_
    · exact adds_bind (P := fun _ _ lines => lines = [move .edi (.dword m)])
        (adds_emit fun _ => rfl) (Q := fun _ _ m' lines => m' = ⟨.edi, 0⟩ ∧ lines = [])
        (fun _ => adds_pure fun _ => ⟨rfl, rfl⟩) (by
          rintro _ _ _ _ _ rfl ⟨rfl, rfl⟩; exact ⟨rfl, rfl⟩)
    · rintro _ m _ lines _ h ⟨rfl, rfl⟩
      refine (h.read (r := .edi) (by decide) rfl (by decide)).view fun s w hw => ?_
      obtain ⟨⟨ty, a⟩, hplace, rfl⟩ := map_eq_some_iff.mp hw
      obtain ⟨info, t, -, ht, -, hread⟩ := place?_cell_eq_some.mp hplace
      refine ⟨a, map_eq_some_iff.mpr ⟨t, ht, hread⟩, fun σ hσ => ?_⟩
      rw [address_mk, hσ]
      exact Int32.add_zero a
  | name x =>
    refine (named_finds image base hsite x).mono fun _ m lines h => ?_
    exact h.mono (cons_subset_cons _ (nil_subset _))
  | _ => exact adds_throw _

/-- Lines find the cell of an operand, which has a type. -/
def Accesses (site : FunctionSite) (depth : Nat) (o : Operand) (ty : Ty) (m : Memory)
    (lines : List Instruction) : Prop :=
  ∀ (σ : Processor) (ty' : Ty) (a : Word), σ.Running base depth →
    site.layout.place? base σ.store o = some (ty', a) →
      ty' = ty ∧ ∃ σ', σ.runAll? image lines = some σ' ∧ σ.Keeps [.esi, .edi] σ' ∧ σ'.address m = a

/-- What follows when the cell of an operand has been found. -/
theorem access_adds (hsite : site.Reaching depth) {o : Operand} {f : Ty → Memory → Lower Unit}
    {R : List String → Unit → List Instruction → Prop}
    (hf : ∀ ty m, Adds (f ty m) fun strings b lines' => ∀ lines,
      Accesses image base site depth o ty m lines → R strings b (lines ++ lines')) :
    Adds (do let ty ← typeOf site o; let m ← memory site o; f ty m) R := by
  refine adds_bind (typeOf_adds base o) (Q := fun ty strings b lines =>
    (∀ s ty' a, site.layout.place? base s o = some (ty', a) → ty' = ty) → R strings b lines)
    (fun ty => ?_) ?_
  · refine adds_bind (memory_finds image base hsite o) (hf ty) ?_
    intro strings m b lines lines' hfinds h hty
    refine h lines fun σ ty' a hσ hplace => ⟨hty _ _ _ hplace, ?_⟩
    exact hfinds σ a hσ (map_eq_some_iff.mpr ⟨_, hplace, rfl⟩)
  · rintro strings ty b _ lines ⟨rfl, hty⟩ h
    exact h hty

theorem ofInt_byte (b : UInt8) : ofInt b.toNat = Word.ofByte b := by
  rw [ofInt_eq_ofNat]
  apply toBitVec_inj.mp
  exact BitVec.ofNat_toNat 32 b.toBitVec

/-- The value of an operand is loaded into a register. -/
theorem load_finds (hsite : site.Reaching depth) (o : Operand) {r : Register} (hr : r.isWhole) :
    Adds (load site o r) fun _ _ lines => Finds image base depth [.esi, .edi, r]
      (fun s => site.layout.value? base s o) (·.registers r) lines := by
  have hsub : [esi, .edi] ⊆ [.esi, .edi, r] := by simp
  have hmem : r ∈ [esi, .edi, r] := by simp
  have himmediate : ∀ n : Int, Finds image base depth [.esi, .edi, r] (fun _ => some (.ofInt n))
      (·.registers r) [move r (.immediate n)] := by
    intro n σ w _ hw
    cases hw
    refine ⟨σ.set r (.ofInt n), ?_, .set hmem _, registers_set_self ..⟩
    rw [runAll?_singleton]
    simp [move, exec?, hr, Value.word?]
  have hload : Adds (do
      let ty ← typeOf site o
      let m ← memory site o
      if ty = .char then emit (.movzx r (.byte m)) else emit (move r (.dword m)))
      fun _ _ lines => Finds image base depth [.esi, .edi, r]
        (fun s => (site.layout.place? base s o).map fun x => s.read x.1 x.2)
        (·.registers r) lines := by
    refine access_adds image base hsite fun ty m => ?_
    -- one line reads the cell that was found
    have hread : ∀ i : Instruction,
        (∀ σ : Processor, i.exec? image σ = some (σ.set r (σ.store.read ty (σ.address m)))) →
        ∀ lines, Accesses image base site depth o ty m lines →
          Finds image base depth [.esi, .edi, r]
            (fun s => (site.layout.place? base s o).map fun x => s.read x.1 x.2)
            (·.registers r) (lines ++ [i]) := by
      intro i hi lines h σ w hσ hw
      obtain ⟨⟨ty', a⟩, hplace, rfl⟩ := map_eq_some_iff.mp hw
      obtain ⟨rfl, σ', hrun, hkeeps, haddress⟩ := h σ ty' a hσ hplace
      refine ⟨σ'.set r (σ'.store.read ty' (σ'.address m)), runAll?_append hrun ?_,
        (hkeeps.mono hsub).trans (.set hmem _), ?_⟩
      · rw [runAll?_singleton, hi]
      · dsimp only
        rw [registers_set_self, haddress, hkeeps.store]
    refine adds_ite (fun hty => adds_emit fun _ => hread _ fun σ => ?_)
      fun hty => adds_emit fun _ => hread _ fun σ => ?_
    · subst hty
      simp [exec?, hr]
    · rw [exec?_move image σ hr, Store.read_of_ne_char _ hty]
  cases o with
  | int value =>
    refine adds_emit fun _ => (himmediate value.toInt).view fun s w hw => ⟨w, ?_, fun σ hσ => hσ⟩
    rw [ofInt_toInt]
    exact hw
  | char byte =>
    refine adds_emit fun _ => (himmediate byte.toNat).view fun s w hw => ⟨w, ?_, fun σ hσ => hσ⟩
    rw [ofInt_byte]
    exact hw
  | _ => exact hload

/-- The address of an operand is put into `esi`. -/
theorem address_finds (hsite : site.Reaching depth) (o : Operand) :
    Adds (address site o) fun strings _ lines => Finds image base depth [.esi, .edi]
      (fun s => site.layout.address? base s image strings o) (·.registers .esi) lines := by
  have hmem : esi ∈ [esi, .edi] := mem_cons_self
  have haddress : Adds (do
      let m ← memory site o
      emit (.lea .esi m))
      fun _ _ lines => Finds image base depth [.esi, .edi]
        (fun s => (site.layout.place? base s o).map Prod.snd) (·.registers .esi) lines := by
    refine adds_bind (memory_finds image base hsite o)
      (Q := fun m _ _ lines => lines = [.lea .esi m]) (fun m => adds_emit fun _ => rfl) ?_
    rintro _ m _ lines _ h rfl
    refine (h.snoc (i := .lea .esi m) (g := (·.registers .esi)) (f := fun _ w => w)
      (by decide) fun σ w _ _ hget => ?_).view fun s w hw => ⟨w, ?_, fun σ hσ => hσ⟩
    · refine ⟨σ.set .esi (σ.address m), rfl, .set hmem _, ?_⟩
      rw [registers_set_self, hget]
    · rw [hw, map_some]
  cases o with
  | string t =>
    refine adds_bind (P := fun strings n lines => strings.idxOf? t = some n ∧ lines = [])
      (adds_stringNumber fun _ _ hn => ⟨hn, rfl⟩)
      (Q := fun n _ _ lines => lines = [move .esi (.offset (stringLabel n))])
      (fun n => adds_emit fun _ => rfl) ?_
    rintro strings n _ _ _ ⟨hn, rfl⟩ rfl σ w _ hw
    refine ⟨σ.set .esi (image.data (stringLabel n)), rfl, .set hmem _, ?_⟩
    have hdata : site.layout.address? base σ.store image strings (.string t) =
        some (image.data (stringLabel n)) := congrArg (Option.map _) hn
    exact (registers_set_self ..).trans (some.inj (hdata.symm.trans hw))
  | _ => exact haddress

/-- Lines write a register to a cell and change no other memory. -/
def Writes (depth : Nat) (place : Store → Option (Ty × Word)) (r : Register)
    (lines : List Instruction) : Prop :=
  ∀ (σ : Processor) (ty : Ty) (a : Word), σ.Running base depth →
    place σ.store = some (ty, a) → ∃ σ', σ.runAll? image lines = some σ' ∧
      (∀ r', r' ∉ [esi, .edi] → σ'.registers r' = σ.registers r') ∧
      σ'.store = σ.store.write ty a (σ.registers r)

/-- A register is stored into what an operand stands for. -/
theorem store_writes (hsite : site.Reaching depth) (o : Operand) {r low : Register}
    (hr : r.isWhole) (hlow : r.lowByte? = some low) (hwhole : low.whole? = some r)
    (hkept : r ∉ [esi, .edi]) :
    Adds (store site o r) fun _ _ lines => Writes image base depth
      (fun s => site.layout.place? base s o) r lines := by
  refine access_adds image base hsite fun ty m => ?_
  -- one line writes the cell that was found
  have hwrite : ∀ i : Instruction, (∀ σ : Processor, i.exec? image σ =
      some (σ.withStore (σ.store.write ty (σ.address m) (σ.registers r)))) →
      ∀ lines, Accesses image base site depth o ty m lines → Writes image base depth
        (fun s => site.layout.place? base s o) r (lines ++ [i]) := by
    intro i hi lines h σ ty' a hσ hplace
    obtain ⟨rfl, σ', hrun, hkeeps, haddress⟩ := h σ ty' a hσ hplace
    refine ⟨_, runAll?_append hrun ((runAll?_singleton i).trans (hi σ')), ?_, ?_⟩
    · exact hkeeps.registers
    · rw [store_withStore, haddress, hkeeps.store, hkeeps.registers r hkept]
  refine adds_ite (fun hty => ?_) fun hty => adds_emit fun _ => hwrite _ fun σ => ?_
  · rw [hlow]
    refine adds_emit fun _ => hwrite _ fun σ => ?_
    subst hty
    simp [exec?, hwhole]
  · rw [Store.write_of_ne_char _ hty]
    simp [exec?, hr]

end Operands

end Lower

end BlockLang
