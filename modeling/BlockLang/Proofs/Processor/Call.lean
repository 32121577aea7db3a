import BlockLang.Proofs.Processor.Meaning
import BlockLang.Proofs.Processor.Stack

/-!
# What lowered calls do

The lines of a call push the arguments, the last one first, and then the link. After the
call they take these words from the stack and store the result. Nothing of this is a jump,
so only a stack without room can stop it.
-/

namespace BlockLang

open Argument List Option Processor

variable {a a' : Assembly} {callee : FunctionLabel} {image : Image} {i : Instruction}
  {l l' : List Instruction} {words : Nat} {σ : Processor} {α : Type}

/-! ### Straight lines -/

namespace Instruction

/-- An instruction leads to the next line, if it can be executed. -/
def IsStraight : Instruction → Prop
  | jmp _ | jcc _ _ | call _ | ret => False
  | _ => True

/-- Lines are run one after the other. -/
def Straight (lines : List Instruction) : Prop := ∀ i ∈ lines, i.IsStraight

theorem Straight.append (h : Straight l) (h' : Straight l') :
    Straight (l ++ l') := forall_mem_append.mpr ⟨h, h'⟩

theorem straight_singleton (h : i.IsStraight) : Straight [i] :=
  forall_mem_singleton.mpr h

theorem IsBasic.isStraight (h : i.IsBasic) : i.IsStraight := by
  obtain ⟨huse, -, hret⟩ := h
  cases i with
  | jmp | jcc | call => cases huse
  | ret => exact hret rfl
  | _ => trivial

theorem isStraight_of_exec? {σ' : Processor} (h : i.exec? image σ = some σ') : i.IsStraight := by
  cases i with
  | jmp l => cases h
  | jcc relation l => cases h
  | call l => cases h
  | ret => cases h
  | _ => trivial

end Instruction

/-- The word that is pushed for an argument: its address or its value. -/
def Argument.word? (l : Layout) (base : Nat → Word) (image : Image) (literals : List String)
    (a : Argument) (s : Store) : Option Word :=
  if a.byReference then l.address? base s image literals a.value else l.value? base s a.value

/-- A literal that is passed is among those of the program. -/
def Argument.Numbered (literals : List String) (a : Argument) : Prop :=
  a.byReference → ∀ t, a.value = .string t → (literals.idxOf? t).isSome

/-- Words have been taken from the stack, and `eax` has been written to a cell, if there is
one for it. -/
structure Processor.Cleaned (σ : Processor) (words : Nat) (cell : Option (Ty × Word))
    (σ' : Processor) : Prop where
  esp : σ'.registers .esp = σ.registers .esp + .ofNat (4 * words)
  ebp : σ'.registers .ebp = σ.registers .ebp
  store : σ'.store = cell.elim σ.store fun c => σ.store.write c.1 c.2 (σ.registers .eax)

theorem Processor.runAll?_append_eq (l l' : List Instruction) :
    σ.runAll? image (l ++ l') = (σ.runAll? image l).bind (·.runAll? image l') := by
  rw [runAll?, foldlM_append]
  rfl

namespace Lower

open Instruction

section Straight

variable {α β : Type} {x : Lower α} {f : α → Lower β} {site : FunctionSite}

/-- A step adds straight lines. -/
abbrev AddsStraight (x : Lower α) : Prop := Adds x fun _ _ lines => Straight lines

theorem Basic.straight (h : Basic x) : AddsStraight x :=
  h.adds.mono fun _ _ _ hlines i hi => (hlines i hi).isStraight

theorem straight_bind (hx : AddsStraight x) (hf : ∀ b, AddsStraight (f b)) :
    AddsStraight (x >>= f) :=
  adds_bind hx hf fun _ _ _ _ _ h h' => h.append h'

theorem straight_emit {line : Instruction} (h : line.IsStraight) : AddsStraight (emit line) :=
  adds_emit fun _ => straight_singleton h

theorem straight_address (o : Operand) : AddsStraight (address site o) := by
  obtain ⟨s, rfl⟩ | haddress := address_cases site o
  · exact straight_bind (adds_stringNumber fun _ _ _ => forall_mem_nil _)
      fun _ => straight_emit trivial
  · exact haddress.straight

end Straight

/-! ### Pushing words -/

section Pushes

variable (image : Image) (base : Nat → Word) (depth : Nat)

/-- The frames around can be reached as long as only the free part of the stack changes. -/
def Steady (σ : Processor) : Prop :=
  ∀ σ' : Processor, σ'.registers .ebp = σ.registers .ebp →
    Set.EqOn σ'.store σ.store (image.Fixed (σ.registers .esp).number) → σ'.Running base depth

/-- Lines push words that are found while only the free part of the stack changes, the last
one first. They stop only if there is no room. -/
def Pushes (finds : List (Store → Option Word)) (lines : List Instruction) : Prop :=
  ∀ σ : Processor, Steady image base depth σ →
    (∀ find ∈ finds, ∀ s, Set.EqOn s σ.store (image.Fixed (σ.registers .esp).number) →
      (find s).isSome) →
    (∀ σ', σ.runAll? image lines = some σ' → ∃ ws, σ.Piled image ws σ' ∧
      List.Forall₂ (fun find w => ∃ s,
        Set.EqOn s σ.store (image.Fixed (σ.registers .esp).number) ∧ find s = some w) finds ws) ∧
    (image.floor + 4 * finds.length ≤ (σ.registers .esp).number →
      (σ.runAll? image lines).isSome)

variable {image base depth} {finds : List (Store → Option Word)} {find : Store → Option Word}
  {l l' : List Instruction} {rs : List Register} {r : Register}

theorem pushes_nil : Pushes image base depth [] [] := by
  intro σ _ _
  refine ⟨fun σ' hrun => ?_, fun _ => rfl⟩
  cases hrun
  exact ⟨[], .refl image σ, .nil⟩

/-- A word that was found in a register is pushed on top of others. -/
theorem Pushes.cons (h : Pushes image base depth finds l)
    (hfind : Finds image base depth rs find (·.registers r) l') (hr : r.isWhole)
    (hesp : .esp ∉ rs) (hebp : .ebp ∉ rs) :
    Pushes image base depth (find :: finds) (l ++ (l' ++ [.push (.register r)])) := by
  intro σ hσ hsome
  obtain ⟨hfirst, hrest⟩ := forall_mem_cons.mp hsome
  obtain ⟨hpiled, hruns⟩ := h σ hσ hrest
  have hpush : ∀ σ2 : Processor, (Instruction.push (.register r)).exec? image σ2 =
      σ2.push? image (σ2.registers r) := by
    intro σ2
    simp [Instruction.exec?, Value.word?, hr]
  -- the word is found after the others have been pushed
  have hfound : ∀ σ1 ws, σ.Piled image ws σ1 → ∃ σ2, σ1.runAll? image l' = some σ2 ∧
      σ.Piled image ws σ2 ∧ ∃ s, Set.EqOn s σ.store (image.Fixed (σ.registers .esp).number) ∧
        find s = some (σ2.registers r) := by
    intro σ1 ws hσ1
    obtain ⟨w, hw⟩ := isSome_iff_exists.mp (hfirst σ1.store hσ1.store)
    obtain ⟨σ2, hrun, hkeeps, rfl⟩ := hfind σ1 w (hσ σ1 hσ1.ebp hσ1.store) hw
    exact ⟨σ2, hrun, hσ1.keeps hkeeps hesp hebp, σ1.store, hσ1.store, hw⟩
  constructor
  · intro σ' hrun
    rw [runAll?_append_eq] at hrun
    obtain ⟨σ1, hrun1, hrun⟩ := bind_eq_some_iff.mp hrun
    obtain ⟨ws, hσ1, hws⟩ := hpiled σ1 hrun1
    obtain ⟨σ2, hrun2, hσ2, hw⟩ := hfound σ1 ws hσ1
    rw [runAll?_append_eq, hrun2, bind_some, runAll?_singleton,
      hpush] at hrun
    exact ⟨_, hσ2.push hrun, .cons hw hws⟩
  · intro hroom
    rw [length_cons] at hroom
    obtain ⟨σ1, hrun1⟩ := isSome_iff_exists.mp (hruns (by omega))
    obtain ⟨ws, hσ1, hws⟩ := hpiled σ1 hrun1
    obtain ⟨σ2, hrun2, hσ2, -⟩ := hfound σ1 ws hσ1
    have hlength := hws.length_eq
    have htop := hσ2.esp
    rw [runAll?_append_eq, hrun1, bind_some, runAll?_append_eq, hrun2,
      bind_some, runAll?_singleton, hpush]
    exact isSome_iff_exists.mpr ⟨_, push?_eq_some.mpr ⟨by omega, rfl⟩⟩

end Pushes

section Calls

variable (image : Image) (base : Nat → Word) {depth : Nat} {site : FunctionSite}

theorem pushArguments_pushes (hsite : site.Reaching depth) (as : List Argument) :
    Adds (pushArguments site as) fun strings _ lines => Pushes image base depth
      (as.map (word? site.layout base image strings)) lines := by
  induction as with
  | nil => exact adds_pure fun _ => pushes_nil
  | cons a as ih =>
    rw [pushArguments]
    refine (adds_seq ih (adds_ite
      (P := fun strings _ lines => ∃ l rs r, lines = l ++ [.push (.register r)] ∧
        Finds image base depth rs (a.word? site.layout base image strings) (·.registers r) l ∧
        r.isWhole ∧ .esp ∉ rs ∧ .ebp ∉ rs) (fun href => ?_) fun href => ?_)).mono ?_
    · refine (adds_seq (address_finds image base hsite a.value) (emit_adds _)).mono ?_
      rintro strings _ _ ⟨l, _, rfl, hl, rfl⟩
      refine ⟨l, _, _, rfl, hl.view fun s w hw => ⟨w, ?_, fun _ h => h⟩, rfl, by decide, by decide⟩
      rwa [word?, if_pos href] at hw
    · refine (adds_seq (load_finds image base hsite a.value (r := .eax) rfl) (emit_adds _)).mono ?_
      rintro strings _ _ ⟨l, _, rfl, hl, rfl⟩
      refine ⟨l, _, _, rfl, hl.view fun s w hw => ⟨w, ?_, fun _ h => h⟩, rfl, by decide, by decide⟩
      rwa [word?, if_neg href] at hw
    · rintro strings _ _ ⟨l, _, rfl, hl, l', rs, r, rfl, hfinds, hr, hesp, hebp⟩
      exact hl.cons hfinds hr hesp hebp

/-- The link is pushed on top of the arguments. -/
theorem pushLink_pushes {hops : Int} (callee : FunctionLabel) (scope : Int)
    (hhops : site.hops scope = hops) (hle : hops.toNat ≤ depth) :
    Adds (pushLink site callee scope) fun _ _ lines => ∀ finds l,
      Pushes image base depth finds l →
        Pushes image base depth ((fun _ => some (base hops.toNat)) :: finds) (l ++ lines) := by
  unfold pushLink
  rw [hhops]
  dsimp only
  refine adds_ite (fun _ => adds_throw _) fun hpos => adds_ite (fun hzero => ?_) fun hzero => ?_
  · refine (emit_adds _).mono ?_
    rintro _ _ _ rfl finds l hl
    have hbase : Finds image base depth [] (fun _ => some (base hops.toNat))
        (·.registers .ebp) [] := by
      refine finds_nil fun σ w hσ hw => ?_
      cases hw
      rw [hzero]
      exact hσ.frame
    exact hl.cons hbase rfl not_mem_nil not_mem_nil
  · refine (adds_seq (walk_finds image base (by omega) hle) (emit_adds _)).mono ?_
    rintro strings _ _ ⟨l', _, rfl, hl', rfl⟩ finds l hl
    exact hl.cons hl' rfl (by decide) (by decide)

end Calls

/-! ### After a call -/

/-- Lines take words from the stack and write the result to its destination. -/
def Cleans (image : Image) (base : Nat → Word) (depth : Nat) (l : Layout) (words : Nat)
    (destination : Option Operand) (lines : List Instruction) : Prop :=
  ∀ σ : Processor, σ.Running base depth →
    (∀ o, destination = some o → (l.place? base σ.store o).isSome) →
    ∃ σ', σ.runAll? image lines = some σ' ∧
      σ.Cleaned words (destination.bind (l.place? base σ.store)) σ'

section Calls

variable {depth lo : Nat} {site : FunctionSite}

theorem clean_adds (words : Nat) :
    Adds (if 0 < words then emit (.add .esp (.immediate (Frame.argumentBytes words))) else pure ())
      fun _ _ lines => Straight lines ∧ ∀ (image : Image) (σ : Processor),
        ∃ σ', σ.runAll? image lines = some σ' ∧ σ.Cleaned words none σ' ∧
          σ'.registers .eax = σ.registers .eax := by
  refine adds_ite (fun _ => adds_emit fun _ => ⟨straight_singleton trivial, fun image σ => ?_⟩)
    fun hwords => adds_pure fun _ => ⟨forall_mem_nil _, fun image σ => ⟨σ, rfl, ?_⟩⟩
  · have hbytes : Int32.ofInt (Frame.argumentBytes words) = .ofNat (4 * words) := by
      rw [← Int32.ofInt_eq_ofNat, ← Int32.toInt_inj, Int32.toInt_ofInt, Int32.toInt_ofInt]
      exact Int.bmod_bmod
    refine ⟨(σ.set .esp (σ.registers .esp + .ofNat (4 * words))).withFlags none, ?_, ⟨?_, ?_, rfl⟩,
      ?_⟩
    · rw [runAll?_singleton, ← hbytes]
      rfl
    · exact σ.registers_set_self .esp _
    · rw [registers_withFlags, registers_set_of_ne _ _ _ (by decide)]
    · rw [registers_withFlags, registers_set_of_ne _ _ _ (by decide)]
  · obtain rfl : words = 0 := by omega
    exact ⟨⟨(Int32.add_zero _).symm, rfl, rfl⟩, rfl⟩

/-- What a step adds has all properties that are known of it. -/
theorem adds_forall {ι : Type} {x : Lower α} {Q : List String → α → List Instruction → Prop}
    {P : ι → List String → α → List Instruction → Prop} (hx : Adds x Q) (h : ∀ k, Adds x (P k)) :
    Adds x fun strings b lines => Q strings b lines ∧ ∀ k, P k strings b lines := by
  intro a b a' hrun
  obtain ⟨lines, happends, hlines⟩ := hx a b a' hrun
  refine ⟨lines, happends, fun strings hs => ⟨hlines strings hs, fun k => ?_⟩⟩
  obtain ⟨lines', happends', hlines'⟩ := h k a b a' hrun
  have hsame : a.lines.toList ++ lines = a.lines.toList ++ lines' :=
    happends.lines.symm.trans happends'.lines
  rw [append_cancel_left hsame]
  exact hlines' strings hs

theorem adds_and {x : Lower α} {P Q : List String → α → List Instruction → Prop} (hP : Adds x P)
    (hQ : Adds x Q) : Adds x fun strings b lines => P strings b lines ∧ Q strings b lines :=
  (adds_forall hP fun _ : Unit => hQ).mono fun _ _ _ h => ⟨h.1, h.2 ()⟩

theorem storeResult_adds (hsite : site.Reaching depth) (destination : Option Operand) :
    Adds (destination.elim (pure ()) fun o => store site o .eax) fun _ _ lines =>
      Straight lines ∧ ∀ (image : Image) (base : Nat → Word),
        Cleans image base depth site.layout 0 destination lines := by
  cases destination with
  | none =>
    refine adds_pure fun _ => ⟨forall_mem_nil _, fun image base σ _ _ => ⟨σ, rfl, ?_⟩⟩
    exact ⟨(Int32.add_zero _).symm, rfl, rfl⟩
  | some o =>
    refine (adds_forall (basic_store o .eax).straight fun k : Image × (Nat → Word) =>
      store_eax k.1 k.2 hsite o).mono ?_
    rintro strings _ lines ⟨hstraight, hwrites⟩
    refine ⟨hstraight, fun image base σ hσ hplace => ?_⟩
    obtain ⟨⟨ty, a⟩, hcell⟩ := isSome_iff_exists.mp (hplace o rfl)
    obtain ⟨σ', hrun, hregisters, hstore⟩ := hwrites ⟨image, base⟩ σ ty a hσ hcell
    refine ⟨σ', hrun, ?_, hregisters _ (by decide), ?_⟩
    · rw [hregisters _ (by decide)]
      exact (Int32.add_zero _).symm
    · rw [bind_some, hcell]
      exact hstore

/-- The result is stored when the words have been taken from the stack. -/
theorem Cleans.after {destination : Option Operand} {base : Nat → Word} {layout : Layout}
    (h : ∀ σ : Processor, ∃ σ', σ.runAll? image l = some σ' ∧ σ.Cleaned words none σ' ∧
      σ'.registers .eax = σ.registers .eax) (h' : Cleans image base depth layout 0 destination l') :
    Cleans image base depth layout words destination (l ++ l') := by
  intro σ hσ hplace
  obtain ⟨σ1, hrun1, hcleaned, heax⟩ := h σ
  have hstore : σ1.store = σ.store := hcleaned.store
  have hσ1 : σ1.Running base depth :=
    ⟨hcleaned.ebp.trans hσ.frame, fun k hk => hstore ▸ hσ.links k hk⟩
  obtain ⟨σ2, hrun2, hesp, hebp, hresult⟩ := h' σ1 hσ1 (by rwa [hstore])
  refine ⟨σ2, runAll?_append hrun1 hrun2, ?_, hebp.trans hcleaned.ebp, ?_⟩
  · rw [hesp, hcleaned.esp]
    exact Int32.add_zero _
  · rw [hresult, hstore, heax]

/-- The frame that a called function gets as its link, if it gets one. -/
def links (site : FunctionSite) (callee : FunctionLabel) (base : Nat → Word) :
    List (Store → Option Word) :=
  (callee.depth.map fun scope _ => some (base (site.hops scope).toNat)).toList

theorem length_links (callee : FunctionLabel) (base : Nat → Word) :
    (links site callee base).length = if callee.depth.isSome then 1 else 0 := by
  unfold links
  cases callee.depth <;> rfl

theorem straight_pushArguments (as : List Argument) : AddsStraight (pushArguments site as) := by
  induction as with
  | nil => exact (basic_pure ()).straight
  | cons a as ih =>
    refine straight_bind ih fun _ => ?_
    exact adds_ite (fun _ => straight_bind (straight_address _) fun _ => straight_emit trivial)
      fun _ => straight_bind (basic_load _ _).straight fun _ => straight_emit trivial

theorem pushArguments_numbered (as : List Argument) : Adds (pushArguments site as)
    fun strings _ _ => ∀ a ∈ as, a.Numbered strings := by
  induction as with
  | nil => exact adds_pure fun _ => forall_mem_nil _
  | cons a as ih =>
    refine (adds_seq ih (adds_ite (P := fun strings _ _ => a.Numbered strings) (fun _ => ?_)
      fun href => ?_)).mono ?_
    · refine (adds_seq (address_literal a.value) (emit_adds _)).mono ?_
      rintro strings _ _ ⟨_, _, -, hliteral, -⟩ -
      exact hliteral
    · refine (adds_seq (basic_load a.value .eax).straight (emit_adds _)).mono ?_
      exact fun _ _ _ _ href' => absurd href' href
    · rintro strings _ _ ⟨_, _, -, has, ha⟩
      exact forall_mem_cons.mpr ⟨ha, has⟩

theorem callAndStore_lines (hsite : site.Reaching depth)
    (h : (do
      emit (.call callee.text)
      if 0 < words then
        emit (.add .esp (.immediate (Frame.argumentBytes words)))
      if let some destination ← takeDestination then
        store site destination .eax : Lower Unit) a = .ok () a') :
    ∃ tail, a.Appends a' (.call callee.text :: tail) ∧ Straight tail ∧
      ∀ (image : Image) (base : Nat → Word),
        Cleans image base depth site.layout words a.destination tail := by
  -- the destination is that of the assembly in front
  have hdestination : ∀ {b : Assembly}, (do
      if let some destination ← takeDestination then
        store site destination .eax : Lower Unit) b = .ok () a' →
      ∃ l, b.Appends a' l ∧ Straight l ∧ ∀ (image : Image) (base : Nat → Word),
        Cleans image base depth site.layout 0 b.destination l := by
    intro b hb
    have htake : takeDestination b = .ok b.destination { b with destination := none } := rfl
    rw [bind_of_ok htake] at hb
    have hrun : (b.destination.elim (pure ()) fun o => store site o .eax)
        { b with destination := none } = .ok () a' := by
      cases hd : b.destination with
      | none => rwa [hd] at hb
      | some o => rwa [hd] at hb
    obtain ⟨l, happends, hl⟩ := storeResult_adds hsite _ _ _ _ hrun
    obtain ⟨hstraight, hcleans⟩ := hl _ prefix_rfl
    exact ⟨l, happends.congr rfl rfl rfl rfl, hstraight, hcleans⟩
  obtain ⟨_, a1, hcall, h⟩ := bind_eq_ok_iff.mp h
  obtain ⟨_, happends1, hl1⟩ := emit_adds (.call callee.text) _ _ _ hcall
  obtain rfl := hl1 _ prefix_rfl
  have hdestination1 : a1.destination = a.destination := by
    cases hcall
    rfl
  obtain ⟨a2, hclean, hdestination2, h⟩ : ∃ a2,
      (if 0 < words then emit (.add .esp (.immediate (Frame.argumentBytes words))) else pure ())
        a1 = .ok () a2 ∧ a2.destination = a1.destination ∧ (do
          if let some destination ← takeDestination then
            store site destination .eax : Lower Unit) a2 = .ok () a' := by
    dsimp only at h
    split at h
    · rename_i hwords
      obtain ⟨_, a2, hadd, h⟩ := bind_eq_ok_iff.mp h
      rw [if_pos hwords]
      refine ⟨a2, hadd, ?_, h⟩
      cases hadd
      rfl
    · rename_i hwords
      rw [if_neg hwords]
      exact ⟨a1, rfl, rfl, h⟩
  obtain ⟨l2, happends2, hl2⟩ := clean_adds words _ _ _ hclean
  obtain ⟨hstraight2, hcleans2⟩ := hl2 _ prefix_rfl
  obtain ⟨l3, happends3, hstraight3, hcleans3⟩ := hdestination h
  rw [hdestination2, hdestination1] at hcleans3
  refine ⟨l2 ++ l3, happends1.trans (happends2.trans happends3), hstraight2.append hstraight3, ?_⟩
  exact fun image base => .after (hcleans2 image) (hcleans3 image base)

/-- The lines of a call: the arguments and the link are pushed, and after the call they are
taken from the stack and the result is stored. -/
theorem call_lines {lo : Nat} (hsound : site.Sound lo) (hsite : site.Reaching depth)
    (ha : a.Prepared site lo)
    (hle : ∀ scope, callee.depth = some scope → scope ≤ site.env.scope ∧
      (site.hops scope).toNat ≤ depth) (h : call site callee a = .ok () a') :
    ∃ front tail, a.Appends a' (front ++ .call callee.text :: tail) ∧ Straight front ∧
      Straight tail ∧ ∀ strings, a'.strings.toList <+: strings →
        (∀ x ∈ a.arguments, x.Numbered strings) ∧ ∀ (image : Image) (base : Nat → Word),
          Pushes image base depth (links site callee base ++
            a.arguments.map (word? site.layout base image strings)) front ∧
          Cleans image base depth site.layout ((links site callee base).length +
            a.arguments.length) a.destination tail := by
  have htake : takeArguments a = .ok a.arguments { a with arguments := [] } := rfl
  unfold call at h
  rw [bind_of_ok htake] at h
  obtain ⟨_, a1, hpush, h⟩ := bind_eq_ok_iff.mp h
  have hdestination1 : a1.destination = a.destination := by
    obtain ⟨_, _, hrun, -, hdestination⟩ := quiet_pushArguments hsound ha.arguments _
    cases hpush.symm.trans hrun
    exact hdestination
  obtain ⟨l1, happends1, hl1⟩ := adds_forall
    (adds_and (straight_pushArguments a.arguments) (pushArguments_numbered a.arguments))
    (fun k : Image × (Nat → Word) => pushArguments_pushes k.1 k.2 hsite a.arguments) _ _ _ hpush
  replace happends1 : a.Appends a1 l1 := happends1.congr rfl rfl rfl rfl
  unfold links
  cases hd : callee.depth with
  | none =>
    simp only [hd, pure_bind] at h
    obtain ⟨tail, happends2, hstraight2, hcleans⟩ := callAndStore_lines hsite h
    refine ⟨l1, tail, happends1.trans happends2, (hl1 _ prefix_rfl).1.1, hstraight2, ?_⟩
    intro strings hs
    obtain ⟨⟨-, hnumbered⟩, hpushes⟩ := hl1 strings (happends2.strings.trans hs)
    refine ⟨hnumbered, fun image base => ⟨hpushes ⟨image, base⟩, ?_⟩⟩
    rw [← hdestination1, Nat.add_comm]
    exact hcleans image base
  | some scope =>
    simp only [hd] at h
    obtain ⟨hscope, hhops⟩ := hle scope hd
    obtain ⟨_, a2, hlink, h⟩ := bind_eq_ok_iff.mp h
    rw [pure_bind] at h
    have hdestination2 : a2.destination = a1.destination := by
      obtain ⟨_, _, hrun, -, hdestination⟩ := quiet_pushLink hscope a1
      cases hlink.symm.trans hrun
      exact hdestination
    obtain ⟨l2, happends2, hl2⟩ := adds_forall (basic_pushLink callee scope).straight
      (fun k : Image × (Nat → Word) => pushLink_pushes k.1 k.2 callee scope rfl hhops) _ _ _ hlink
    obtain ⟨tail, happends3, hstraight3, hcleans⟩ := callAndStore_lines hsite h
    have happends := happends1.trans (happends2.trans happends3)
    rw [← append_assoc] at happends
    refine ⟨l1 ++ l2, tail, happends,
      (hl1 _ prefix_rfl).1.1.append (hl2 _ prefix_rfl).1, hstraight3, ?_⟩
    intro strings hs
    have hs2 := happends3.strings.trans hs
    obtain ⟨⟨-, hnumbered⟩, hpushes⟩ := hl1 strings (happends2.strings.trans hs2)
    refine ⟨hnumbered, fun image base => ⟨?_, ?_⟩⟩
    · exact (hl2 strings hs2).2 ⟨image, base⟩ _ _ (hpushes ⟨image, base⟩)
    rw [← hdestination1, ← hdestination2, Nat.add_comm]
    exact hcleans image base

end Calls

end Lower

end BlockLang
