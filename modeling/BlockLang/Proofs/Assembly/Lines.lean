import BlockLang.Proofs.Emit.Step

/-!
# The lines that lowering adds

Lowering appends lines and may add string literals. What a step adds depends on the assembly before
it only through the numbers of the literals, so it is described by a relation between its result,
its lines and the literals in the end. A quad uses one label at most.
-/

namespace BlockLang

open Assembly List

variable {line : Instruction} {l : List LabelUse}

/-- The second assembly is the first with lines appended and perhaps further literals. -/
structure Assembly.Appends (a a' : Assembly) (lines : List Instruction) : Prop where
  lines : a'.lines.toList = a.lines.toList ++ lines
  strings : a.strings.toList <+: a'.strings.toList

namespace Assembly.Appends

variable {a a1 a2 : Assembly} {l l' : List Instruction}

theorem refl (a : Assembly) : a.Appends a [] := ⟨(append_nil _).symm, prefix_rfl⟩

theorem trans (h : a.Appends a1 l) (h' : a1.Appends a2 l') : a.Appends a2 (l ++ l') :=
  ⟨by rw [h'.lines, h.lines, append_assoc], h.strings.trans h'.strings⟩

theorem size_eq (h : a.Appends a1 l) : a1.lines.size = a.lines.size + l.length := by
  have hlength := congrArg length h.lines
  rwa [length_append, Array.length_toList, Array.length_toList] at hlength

theorem congr {b b' : Assembly} (h : a.Appends a1 l) (hlines : b.lines = a.lines)
    (hstrings : b.strings = a.strings) (hlines' : b'.lines = a1.lines)
    (hstrings' : b'.strings = a1.strings) : b.Appends b' l :=
  ⟨by rw [hlines', h.lines, hlines], by rw [hstrings, hstrings']; exact h.strings⟩

end Assembly.Appends

namespace Lower

/-- Whenever a step succeeds it appends lines, and the literals in the end, its result and
its lines are related. -/
def Adds {α : Type} (x : Lower α) (P : List String → α → List Instruction → Prop) : Prop :=
  ∀ a b a', x a = .ok b a' → ∃ lines, a.Appends a' lines ∧
    ∀ strings, a'.strings.toList <+: strings → P strings b lines

/-! ### Steps in a row -/

section Adds

variable {α β : Type} {x : Lower α} {f : α → Lower β}
  {P P' : List String → α → List Instruction → Prop}
  {Q : α → List String → β → List Instruction → Prop}
  {R : List String → β → List Instruction → Prop}

theorem Adds.mono (h : Adds x P) (hP : ∀ strings b l, P strings b l → P' strings b l) :
    Adds x P' := by
  intro a b a' hrun
  obtain ⟨lines, happends, hlines⟩ := h a b a' hrun
  exact ⟨lines, happends, fun strings hs => hP _ _ _ (hlines strings hs)⟩

theorem adds_pure {b : α} (h : ∀ strings, P strings b []) : Adds (pure b : Lower α) P := by
  intro a b' a' hrun
  cases hrun
  exact ⟨[], .refl a, fun strings _ => h strings⟩

theorem adds_throw (e : InternalError) : Adds (throw e : Lower α) P := by
  intro a b a' hrun
  cases hrun

theorem adds_bind (hx : Adds x P) (hf : ∀ b, Adds (f b) (Q b))
    (h : ∀ strings b c l l', P strings b l → Q b strings c l' → R strings c (l ++ l')) :
    Adds (x >>= f) R := by
  intro a c a' hrun
  obtain ⟨b, a1, hb, hc⟩ := bind_eq_ok_iff.mp hrun
  obtain ⟨l, happends, hl⟩ := hx a b a1 hb
  obtain ⟨l', happends', hl'⟩ := hf b a1 c a' hc
  exact ⟨l ++ l', happends.trans happends', fun strings hs =>
    h strings b c l l' (hl strings (happends'.strings.trans hs)) (hl' strings hs)⟩

/-- A step whose result is not needed, and another one. -/
theorem adds_seq {y : Lower β} {P : List String → List Instruction → Prop}
    (hx : Adds x fun strings _ l => P strings l) (hy : Adds y R) :
    Adds (x >>= fun _ => y) fun strings b l =>
      ∃ l1 l2, l = l1 ++ l2 ∧ P strings l1 ∧ R strings b l2 :=
  adds_bind hx (fun _ => hy) fun _ _ _ l1 l2 h1 h2 => ⟨l1, l2, rfl, h1, h2⟩

theorem adds_ite {c : Prop} [Decidable c] {y : Lower α} (hx : c → Adds x P) (hy : ¬ c → Adds y P) :
    Adds (if c then x else y) P := by
  split
  · exact hx ‹c›
  · exact hy ‹¬ c›

theorem adds_emit {P : List String → Unit → List Instruction → Prop}
    (h : ∀ strings, P strings () [line]) : Adds (emit line) P := by
  intro a b a' hrun
  cases hrun
  exact ⟨[line], ⟨Array.toList_push, prefix_rfl⟩, fun strings _ => h strings⟩

theorem adds_emitAll {P : List String → Unit → List Instruction → Prop}
    {lines : List Instruction} (h : ∀ strings, P strings () lines) : Adds (emitAll lines) P := by
  intro a b a' hrun
  cases hrun
  exact ⟨lines, ⟨Array.toList_appendList, prefix_rfl⟩, fun strings _ => h strings⟩

/-- A literal has its number in the end too. -/
theorem adds_stringNumber {s : String} {P : List String → Nat → List Instruction → Prop}
    (h : ∀ strings n, strings.idxOf? s = some n → P strings n []) : Adds (stringNumber s) P := by
  intro a n a' hrun
  change EStateM.Result.ok _ _ = _ at hrun
  cases hs : a.strings.idxOf? s with
  | some m =>
    rw [hs] at hrun
    cases hrun
    refine ⟨[], .refl a, ?_⟩
    rintro _ ⟨more, rfl⟩
    apply h
    rw [← a.strings.toArray_toList, idxOf?_toArray, idxOf?] at hs
    rw [idxOf?, findIdx?_append, hs]
    rfl
  | none =>
    rw [hs] at hrun
    cases hrun
    refine ⟨[], ⟨(append_nil _).symm, ?_⟩, ?_⟩
    · rw [Array.toList_push]
      exact prefix_append _ _
    · rintro _ ⟨more, rfl⟩
      apply h
      rw [← a.strings.toArray_toList, idxOf?_toArray, idxOf?] at hs
      rw [Array.toList_push, idxOf?, findIdx?_append, findIdx?_append, hs]
      simp

end Adds

end Lower

/-! ### Uses of labels -/

/-- The label whose address a value is. -/
def Value.cited : Value → List String
  | offset label => [label]
  | _ => []

/-- What a line has to do with labels: it defines one, jumps to one or calls one. -/
inductive LabelUse
  | definition (label : String)
  | jump (label : String)
  | call (label : String)
  deriving DecidableEq

namespace Instruction

/-- What a line has to do with labels. -/
def use? : Instruction → Option LabelUse
  | label l | asciz l _ => some (.definition l)
  | jmp l | jcc _ l => some (.jump l)
  | call l => some (.call l)
  | _ => none

def cited : Instruction → List String
  | mov target source => target.cited ++ source.cited
  | movzx _ source | add _ source | sub _ source | imul _ source | push source => source.cited
  | _ => []

/-- A line that has nothing to do with labels and leads to the next line. -/
def IsBasic (i : Instruction) : Prop := i.use? = none ∧ i.cited = [] ∧ i ≠ .ret

def uses (lines : List Instruction) : List LabelUse := lines.filterMap use?

theorem uses_append (l l' : List Instruction) : uses (l ++ l') = uses l ++ uses l' :=
  filterMap_append

end Instruction

/-- The uses of labels that a quad of a function adds. -/
def Quad.uses (function : FunctionLabel) (q : Quad) : List LabelUse :=
  match q.op, q.output with
  | .unit, _ => [.definition function.text]
  | .endUnit, _ => [.definition (endLabel function)]
  | .ret, _ => [.jump (endLabel function)]
  | .jump, some (.target t) => [.jump (quadLabel t)]
  | .compare _, some (.target t) => [.jump (quadLabel t)]
  | .call, some (.function callee) => [.call callee.text]
  | _, _ => []

/-- The uses of a numbered quad: its own label, if it is a target, and what it does. -/
def FunctionSite.uses (site : FunctionSite) (q : Quad) (n : Nat) : List LabelUse :=
  (if site.code.isTarget n then [.definition (quadLabel n)] else []) ++
    q.uses site.label

namespace Lower

/-! ### Basic steps -/

/-- Whether or not a step succeeds, it adds basic lines and changes nothing else. -/
def Basic {α : Type} (x : Lower α) : Prop :=
  ∀ a : Assembly, ∃ lines : List Instruction, (∀ i ∈ lines, i.IsBasic) ∧
    ((∃ b, x a = .ok b { a with lines := a.lines ++ lines }) ∨
      ∃ e, x a = .error e { a with lines := a.lines ++ lines })

section Basic

variable {α β : Type} {x : Lower α} {f : α → Lower β}

theorem Basic.adds (h : Basic x) : Adds x fun _ _ lines => ∀ i ∈ lines, i.IsBasic := by
  intro a b a' hrun
  obtain ⟨lines, hlines, ⟨_, hok⟩ | ⟨_, herror⟩⟩ := h a
  · cases hok.symm.trans hrun
    exact ⟨lines, ⟨Array.toList_appendList, prefix_rfl⟩, fun _ _ => hlines⟩
  · cases herror.symm.trans hrun

theorem basic_pure (b : α) : Basic (pure b : Lower α) :=
  fun _ => ⟨[], forall_mem_nil _, .inl ⟨b, rfl⟩⟩

theorem basic_throw (e : InternalError) : Basic (throw e : Lower α) :=
  fun _ => ⟨[], forall_mem_nil _, .inr ⟨e, rfl⟩⟩

theorem basic_bind (hx : Basic x) (hf : ∀ b, Basic (f b)) : Basic (x >>= f) := by
  intro a
  obtain ⟨l, hl, ⟨b, hb⟩ | ⟨e, he⟩⟩ := hx a
  · obtain ⟨l', hl', hrest⟩ := hf b { a with lines := a.lines ++ l }
    have hlines : a.lines ++ l ++ l' = a.lines ++ (l ++ l') := Array.toList_inj.mp (by simp)
    rw [← bind_of_ok (f := f) hb, hlines] at hrest
    exact ⟨l ++ l', forall_mem_append.mpr ⟨hl, hl'⟩, hrest⟩
  · exact ⟨l, hl, .inr ⟨e, bind_eq_error_iff.mpr (.inl he)⟩⟩

theorem basic_ite {c : Prop} [Decidable c] {y : Lower α} (hx : Basic x) (hy : Basic y) :
    Basic (if c then x else y) := by
  split
  · exact hx
  · exact hy

theorem basic_emit (h : line.IsBasic) : Basic (emit line) :=
  fun _ => ⟨[line], forall_mem_singleton.mpr h, .inl ⟨(), rfl⟩⟩

theorem basic_walk (hops : Int) : Basic (walk hops) := by
  refine fun a => ⟨_, ?_, .inl ⟨(), rfl⟩⟩
  refine forall_mem_cons.mpr ⟨⟨rfl, rfl, nofun⟩, fun i hi => ?_⟩
  rw [(mem_replicate.mp hi).2]
  exact ⟨rfl, rfl, nofun⟩

theorem basic_required (o : Option Operand) : Basic (required o) := by
  cases o with
  | none => exact basic_throw _
  | some o => exact basic_pure o

variable {site : FunctionSite}

theorem basic_typeOf (o : Operand) : Basic (typeOf site o) := by
  cases o with
  | temp n =>
    rw [typeOf]
    split
    · exact basic_pure _
    · exact basic_throw _
  | cell n =>
    rw [typeOf]
    split
    · exact basic_pure _
    · exact basic_throw _
  | name y =>
    rw [typeOf]
    split
    · exact basic_pure _
    · exact basic_pure _
    · exact basic_throw _
  | int value => exact basic_pure _
  | char byte => exact basic_pure _
  | _ => exact basic_throw _

theorem basic_tempSlot (n : Nat) : Basic (tempSlot site n) := by
  unfold tempSlot
  split
  · exact basic_pure _
  · exact basic_throw _

theorem basic_named (y : String) : Basic (named site y) := by
  unfold named
  split
  · exact basic_throw _
  · rename_i binding _
    refine basic_ite (basic_bind (basic_pure _) fun frame => ?_)
      (basic_bind (basic_walk _) fun _ => basic_bind (basic_pure _) fun frame => ?_)
    -- what follows the choice of the frame is the same for both
    all_goals
      split
      · split
        · exact basic_pure _
        · exact basic_throw _
      · split
        · exact basic_ite (basic_bind (basic_emit ⟨rfl, rfl, nofun⟩) fun _ => basic_pure _)
            (basic_pure _)
        · exact basic_throw _
      · exact basic_throw _

theorem basic_memory (o : Operand) : Basic (memory site o) := by
  cases o with
  | temp n => exact basic_tempSlot n
  | cell n =>
    exact basic_bind (basic_tempSlot n) fun _ =>
      basic_bind (basic_emit ⟨rfl, rfl, nofun⟩) fun _ => basic_pure _
  | name y => exact basic_named y
  | _ => exact basic_throw _

theorem basic_load (o : Operand) (r : Register) : Basic (load site o r) := by
  have hload : Basic (do
      let ty ← typeOf site o
      let m ← memory site o
      if ty = .char then emit (.movzx r (.byte m)) else emit (move r (.dword m))) :=
    basic_bind (basic_typeOf o) fun _ => basic_bind (basic_memory o) fun _ =>
      basic_ite (basic_emit ⟨rfl, rfl, nofun⟩) (basic_emit ⟨rfl, rfl, nofun⟩)
  cases o with
  | int value => exact basic_emit ⟨rfl, rfl, nofun⟩
  | char byte => exact basic_emit ⟨rfl, rfl, nofun⟩
  | _ => exact hload

theorem basic_store (o : Operand) (r : Register) : Basic (store site o r) := by
  refine basic_bind (basic_typeOf o) fun _ => basic_bind (basic_memory o) fun _ => ?_
  refine basic_ite ?_ (basic_emit ⟨rfl, rfl, nofun⟩)
  split
  · exact basic_emit ⟨rfl, rfl, nofun⟩
  · exact basic_throw _

/-- Only the address of a literal takes a line that is not basic. -/
theorem address_cases (site : FunctionSite) (o : Operand) :
    (∃ s, o = .string s) ∨ Basic (address site o) := by
  have haddress : Basic (do
      let m ← memory site o
      emit (.lea .esi m)) := basic_bind (basic_memory o) fun _ => basic_emit ⟨rfl, rfl, nofun⟩
  cases o with
  | string s => exact .inl ⟨s, rfl⟩
  | _ => exact .inr haddress

theorem basic_pushLink (callee : FunctionLabel) (depth : Int) :
    Basic (pushLink site callee depth) := by
  unfold pushLink
  dsimp only
  refine basic_ite (basic_throw _) (basic_ite (basic_emit ⟨rfl, rfl, nofun⟩) ?_)
  exact basic_bind (basic_walk _) fun _ => basic_emit ⟨rfl, rfl, nofun⟩

theorem basic_assign (first second output : Option Operand) :
    Basic (quad site ⟨.assign, first, second, output⟩) := by
  refine basic_bind (basic_required _) fun _ => basic_bind (basic_load _ _) fun _ => ?_
  refine basic_bind (basic_required _) fun o => ?_
  split
  · exact basic_pure ()
  · exact basic_store _ _

theorem basic_arith (operator : Arith) (first second output : Option Operand) :
    Basic (quad site ⟨.arith operator, first, second, output⟩) := by
  have hdivide : ∀ result, Basic (do
      load site (← required first) .eax
      emit .cdq
      load site (← required second) .ebx
      emit (.idiv .ebx)
      store site (← required output) result) := fun result =>
    basic_bind (basic_required _) fun _ => basic_bind (basic_load _ _) fun _ =>
      basic_bind (basic_emit ⟨rfl, rfl, nofun⟩) fun _ => basic_bind (basic_required _) fun _ =>
        basic_bind (basic_load _ _) fun _ => basic_bind (basic_emit ⟨rfl, rfl, nofun⟩) fun _ =>
          basic_bind (basic_required _) fun _ => basic_store _ _
  have hcompute : Basic (do
      load site (← required first) .eax
      load site (← required second) .edx
      emit (arithInstruction operator)
      store site (← required output) .eax) :=
    basic_bind (basic_required _) fun _ => basic_bind (basic_load _ _) fun _ =>
      basic_bind (basic_required _) fun _ => basic_bind (basic_load _ _) fun _ =>
        basic_bind (basic_emit (by cases operator <;> exact ⟨rfl, rfl, nofun⟩)) fun _ =>
          basic_bind (basic_required _) fun _ => basic_store _ _
  cases operator with
  | div => exact hdivide _
  | mod => exact hdivide _
  | _ => exact hcompute

end Basic

/-! ### Steps with uses -/

/-- A step adds lines with given uses. -/
abbrev AddsUses {α : Type} (x : Lower α) (uses : List LabelUse) : Prop :=
  Adds x fun _ _ lines => Instruction.uses lines = uses

section Uses

variable {α β : Type} {x : Lower α} {f : α → Lower β}

theorem Basic.uses (h : Basic x) : AddsUses x [] :=
  h.adds.mono fun _ _ _ hlines => filterMap_eq_nil_iff.mpr fun i hi => (hlines i hi).1

theorem uses_bind {l' : List LabelUse} (hx : AddsUses x l) (hf : ∀ b, AddsUses (f b) l') :
    AddsUses (x >>= f) (l ++ l') :=
  adds_bind hx hf fun _ _ _ _ _ h h' => by rw [Instruction.uses_append, h, h']

theorem Basic.bind_uses (hx : Basic x) (hf : ∀ b, AddsUses (f b) l) : AddsUses (x >>= f) l :=
  uses_bind hx.uses hf

theorem uses_emit (line : Instruction) : AddsUses (emit line) line.use?.toList :=
  adds_emit fun _ => by cases h : line.use? <;> simp [Instruction.uses, h]

variable {site : FunctionSite}

theorem plain_address (o : Operand) : AddsUses (address site o) [] := by
  obtain ⟨s, rfl⟩ | haddress := address_cases site o
  · exact uses_bind (adds_stringNumber fun _ _ _ => rfl) fun _ => uses_emit (move _ _)
  · exact haddress.uses

theorem plain_pushArguments (arguments : List Argument) :
    AddsUses (pushArguments site arguments) [] := by
  induction arguments with
  | nil => exact (basic_pure ()).uses
  | cons a as ih =>
    refine uses_bind ih fun _ => ?_
    exact adds_ite (fun _ => uses_bind (plain_address _) fun _ => uses_emit (.push _))
      fun _ => (basic_load _ _).bind_uses fun _ => uses_emit (.push _)

/-- What is remembered for a call may change. -/
theorem plain_modify (g : Assembly → α × Assembly)
    (hg : ∀ a, (g a).2.lines = a.lines ∧ (g a).2.strings = a.strings) :
    AddsUses (modifyGet g : Lower α) [] := by
  intro a b a' hrun
  cases hrun
  refine ⟨[], (Appends.refl a).congr rfl rfl (hg a).1 (hg a).2, fun _ _ => rfl⟩

theorem plain_takeArguments : AddsUses takeArguments [] := plain_modify _ fun _ => ⟨rfl, rfl⟩

theorem plain_takeDestination : AddsUses takeDestination [] := plain_modify _ fun _ => ⟨rfl, rfl⟩

end Uses

/-! ### Calls and quads -/

section Quads

variable {site : FunctionSite}

/-- When the arguments and the link have been pushed, only the call itself is a use. -/
theorem callAndStore_uses (callee : FunctionLabel) (words : Nat) : AddsUses (do
    emit (.call callee.text)
    if 0 < words then
      emit (.add .esp (.immediate (Frame.argumentBytes words)))
    if let some destination ← takeDestination then
      store site destination .eax : Lower Unit) [.call callee.text] := by
  have hstore : AddsUses (do
      if let some destination ← takeDestination then
        store site destination .eax : Lower Unit) [] := by
    refine uses_bind plain_takeDestination fun destination => ?_
    cases destination with
    | none => exact (basic_pure ()).uses
    | some o => exact (basic_store o _).uses
  refine uses_bind (uses_emit (.call callee.text)) fun _ => ?_
  dsimp only
  exact adds_ite (fun _ => uses_bind (uses_emit (.add _ _)) fun _ => hstore) fun _ => hstore

theorem call_uses (callee : FunctionLabel) : AddsUses (call site callee) [.call callee.text] := by
  unfold call
  refine uses_bind plain_takeArguments fun arguments => ?_
  refine uses_bind (plain_pushArguments arguments) fun _ => ?_
  split
  · exact (basic_pure _).bind_uses fun words => callAndStore_uses callee words
  · refine (basic_pushLink callee _).bind_uses fun _ => ?_
    exact (basic_pure _).bind_uses fun words => callAndStore_uses callee words

theorem uses_jumpLabel {q : Quad} {f : String → Lower Unit} {uses : List LabelUse}
    (h : ∀ t, q.output = some (.target t) → AddsUses (f (quadLabel t)) uses) :
    AddsUses (jumpLabel q >>= f) uses := by
  obtain ⟨op, first, second, output⟩ := q
  intro a b a' hrun
  cases output with
  | none => cases hrun
  | some o =>
    cases o with
    | target t => exact h t rfl a b a' hrun
    | _ => cases hrun

theorem quad_uses (q : Quad) : AddsUses (quad site q) (q.uses site.label) := by
  obtain ⟨op, first, second, output⟩ := q
  cases op with
  | unit => exact adds_emitAll fun _ => rfl
  | endUnit => exact adds_emitAll fun _ => rfl
  | ret => exact adds_emit fun _ => rfl
  | assign => exact (basic_assign first second output).uses
  | array =>
    have hcell : ∀ n info, AddsUses (do
        load site (← required second) .eax
        emit (move .ecx (.immediate (CellInfo.element info).size))
        emit (.imul .eax (.register .ecx))
        address site (← required first)
        emit (.add .eax (.register .esi))
        store site (.temp n) .eax : Lower Unit) [] := by
      intro n info
      refine (basic_required _).bind_uses fun _ => (basic_load _ _).bind_uses fun _ => ?_
      refine uses_bind (uses_emit (move _ _)) fun _ => uses_bind (uses_emit (.imul _ _)) fun _ => ?_
      refine (basic_required _).bind_uses fun _ => uses_bind (plain_address _) fun _ => ?_
      exact uses_bind (uses_emit (.add _ _)) fun _ => (basic_store _ _).uses
    refine (basic_required _).bind_uses fun o => ?_
    split
    · refine (basic_pure _).bind_uses fun n => ?_
      dsimp only
      split
      · exact adds_throw _
      · exact hcell n _
    · refine (basic_pure _).bind_uses fun n => ?_
      dsimp only
      split
      · exact adds_throw _
      · exact hcell n _
    · exact adds_throw _
  | arith operator => exact (basic_arith operator first second output).uses
  | jump =>
    refine uses_jumpLabel fun t ht => ?_
    cases ht
    exact uses_emit (.jmp _)
  | compare relation =>
    refine uses_jumpLabel fun t ht => ?_
    cases ht
    refine (basic_required _).bind_uses fun _ => (basic_load _ _).bind_uses fun _ => ?_
    refine (basic_required _).bind_uses fun _ => (basic_load _ _).bind_uses fun _ => ?_
    exact uses_bind (uses_emit (.cmp _ _)) fun _ => uses_emit (.jcc relation _)
  | par =>
    refine (basic_required _).bind_uses fun value => (basic_required _).bind_uses fun o => ?_
    cases o with
    | byValue => exact plain_modify _ fun _ => ⟨rfl, rfl⟩
    | byReference => exact plain_modify _ fun _ => ⟨rfl, rfl⟩
    | returnDestination => exact plain_modify _ fun _ => ⟨rfl, rfl⟩
    | _ => exact adds_throw _
  | call =>
    cases output with
    | none => exact adds_throw .missingOperand
    | some o =>
      cases o with
      | function callee => exact call_uses callee
      | _ => exact adds_throw _

/-- The uses of a quad with its own label in front. -/
theorem numbered_uses (q : Quad) (n : Nat) : AddsUses (numbered site q n) (site.uses q n) := by
  unfold numbered FunctionSite.uses
  dsimp only
  split
  · exact uses_bind (uses_emit _) fun _ => quad_uses q
  · exact quad_uses q

theorem uses_forM {α : Type} {f : α → Lower Unit} {uses : α → List LabelUse}
    (h : ∀ x, AddsUses (f x) (uses x)) (xs : List α) :
    AddsUses (xs.forM f) (xs.flatMap uses) := by
  induction xs with
  | nil => exact (basic_pure ()).uses
  | cons x xs ih =>
    rw [flatMap_cons]
    exact uses_bind (h x) fun _ => ih

theorem body_uses {a a' : Assembly} (h : body site a = .ok () a') :
    ∃ lines, a.Appends a' lines ∧ Instruction.uses lines =
      ((site.code.quads.toList.drop a.quadsDone).zipIdx a.quadsDone).flatMap
        fun (q, n) => site.uses q n := by
  rw [body_eq] at h
  obtain ⟨_, a1, hrun, hdone⟩ := bind_eq_ok_iff.mp h
  obtain ⟨lines, happends, huses⟩ :=
    uses_forM (fun x : Quad × Nat => numbered_uses x.1 x.2) _ a _ a1 hrun
  cases hdone
  exact ⟨lines, happends.congr rfl rfl rfl rfl, huses _ prefix_rfl⟩

end Quads

end Lower

end BlockLang
