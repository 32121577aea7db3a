import BlockLang.Proofs.Linking

/-!
# Basic blocks

A program is divided whenever a function is complete. Its jumps have been led to their targets by
then, and no later jump leads into it, so the blocks of a function stay what they are: they take
its quads, every jump leads to the start of a block, and control leaves a block only after its last
quad.
-/

namespace BlockLang

open Code CompiledFunction.Closes List

/-! ### Consecutive blocks -/

namespace Block

/-- Blocks that are not empty take the quads from `start` up to `stop`, one block after the
other. -/
def Consecutive : Nat → List Block → Nat → Prop
  | start, [], stop => start = stop
  | start, b :: bs, stop => b.first = start ∧ b.first ≤ b.last ∧ Consecutive (b.last + 1) bs stop

namespace Consecutive

variable {start middle stop i : Nat} {bs bs' : List Block} {b b' : Block}

theorem append (h : Consecutive start bs middle) (h' : Consecutive middle bs' stop) :
    Consecutive start (bs ++ bs') stop := by
  induction bs generalizing start with
  | nil => exact h ▸ h'
  | cons b bs ih => exact ⟨h.1, h.2.1, ih h.2.2⟩

variable (h : Consecutive start bs stop)

include h

theorem le : start ≤ stop := by
  induction bs generalizing start with
  | nil => exact Nat.le_of_eq h
  | cons b bs ih =>
    have hle := ih h.2.2
    have hfirst := h.1
    have hlast := h.2.1
    omega

theorem bounds (hb : b ∈ bs) : start ≤ b.first ∧ b.first ≤ b.last ∧ b.last < stop := by
  induction bs generalizing start with
  | nil => cases hb
  | cons b' bs ih =>
    have hfirst := h.1
    have hlast := h.2.1
    obtain rfl | hb := mem_cons.mp hb
    · exact ⟨h.1.ge, h.2.1, h.2.2.le⟩
    · obtain ⟨hlow, hhigh⟩ := ih h.2.2 hb
      exact ⟨by omega, hhigh⟩

/-- No quad stands in two blocks. -/
theorem eq_of_mem (hb : b ∈ bs) (hb' : b' ∈ bs) (hi : b.first ≤ i ∧ i ≤ b.last)
    (hi' : b'.first ≤ i ∧ i ≤ b'.last) : b = b' := by
  induction bs generalizing start with
  | nil => cases hb
  | cons b0 bs ih =>
    -- a later block starts behind the end of the first
    have hlater : ∀ b ∈ bs, b0.last < b.first := fun b hb => (h.2.2.bounds hb).1
    rcases mem_cons.mp hb with rfl | hmem <;> rcases mem_cons.mp hb' with rfl | hmem'
    · rfl
    · have := hlater b' hmem'
      omega
    · have := hlater b hmem
      omega
    · exact ih h.2.2 hmem hmem'

omit h

/-- The last block may take one more quad. -/
theorem extendLast (h : Consecutive start (bs ++ [b]) stop) :
    Consecutive start (bs ++ [{ b with last := stop }]) (stop + 1) := by
  induction bs generalizing start with
  | nil =>
    obtain ⟨hfirst, hlast, hstop⟩ := h
    exact ⟨hfirst, by change b.last + 1 = stop at hstop; dsimp only; omega, rfl⟩
  | cons b' bs ih => exact ⟨h.1, h.2.1, ih h.2.2⟩

end Consecutive

end Block

/-! ### The blocks of code -/

namespace Code

variable {c c' : Code} {start stop i : Nat} {blocks : List Block}

/-- Blocks divide the quads from `start` up to `stop`. They start at the first of these quads, at
jump targets, and behind quads that may jump. -/
structure DividedBy (c : Code) (start stop : Nat) (blocks : List Block) : Prop where
  consecutive : Block.Consecutive start blocks stop
  starts : ∀ i, start ≤ i → i < stop →
    ((∃ b ∈ blocks, b.first = i) ↔
      i = start ∨ c.isTarget i ∨ ∃ q, c.quads[i - 1]? = some q ∧ q.op.isJump)

theorem isLeader_iff : c.isLeader start i ↔
    i = start ∨ c.isTarget i ∨ ∃ q, c.quads[i - 1]? = some q ∧ q.op.isJump := by
  simp [isLeader, or_assoc, Option.any_eq_true]

namespace DividedBy

theorem exists_first_extend (h : c.DividedBy start stop blocks) :
    (∃ b ∈ c.extend start blocks stop, b.first = i) ↔
      (∃ b ∈ blocks, b.first = i) ∨ i = stop ∧ c.isLeader start stop := by
  rcases eq_nil_or_concat' blocks with rfl | ⟨blocks, b, rfl⟩
  · obtain rfl : start = stop := h.consecutive
    simp [extend, isLeader, eq_comm]
  · rw [extend, getLast?_concat]
    dsimp only
    split
    · simp [*, or_and_right, exists_or, or_assoc, @eq_comm _ i]
    · simp [*]

/-- One more quad is divided. -/
theorem extend (h : c.DividedBy start stop blocks) :
    c.DividedBy start (stop + 1) (c.extend start blocks stop) where
  consecutive := by
    have hconsecutive := h.consecutive
    rcases eq_nil_or_concat' blocks with rfl | ⟨blocks, b, rfl⟩
    · exact ⟨Eq.symm hconsecutive, Nat.le_refl _, rfl⟩
    · rw [extend, getLast?_concat]
      dsimp only
      split
      · exact hconsecutive.append ⟨rfl, Nat.le_refl _, rfl⟩
      · rw [dropLast_concat]
        exact hconsecutive.extendLast
  starts i hi hi' := by
    rw [h.exists_first_extend, ← isLeader_iff]
    by_cases hlt : i < stop
    · rw [h.starts i hi hlt, ← isLeader_iff]
      exact or_iff_left fun hstop => absurd hstop.1 (Nat.ne_of_lt hlt)
    · -- no block in front starts at the quad
      obtain rfl : i = stop := by omega
      have hnot : ¬ ∃ b ∈ blocks, b.first = i := by
        rintro ⟨b, hb, rfl⟩
        obtain ⟨-, hle, hstop⟩ := h.consecutive.bounds hb
        omega
      rw [or_iff_right hnot, eq_self, true_and]

end DividedBy

theorem blocksFrom_divide (h : start ≤ c.next) :
    c.DividedBy start c.next (c.blocksFrom start) := by
  have hrun : ∀ n, c.DividedBy start (start + n) ((range' start n).foldl (c.extend start) []) := by
    intro n
    induction n with
    | zero => exact ⟨rfl, fun i hi hi' => absurd hi (Nat.not_le.mpr hi')⟩
    | succ n ih =>
      rw [range'_1_concat, foldl_append]
      exact ih.extend
  have hdivided := hrun (c.next - start)
  rwa [Nat.add_sub_cancel' h] at hdivided

namespace DividedBy

/-- A quad that may jump is the last one of its block. -/
theorem not_isJump (h : c.DividedBy start stop blocks) {b : Block} {q : Quad} (hb : b ∈ blocks)
    (hi : b.first ≤ i) (hi' : i < b.last) (hq : c.quads[i]? = some q) : ¬ q.op.isJump := by
  intro hjump
  obtain ⟨hlow, -, hhigh⟩ := h.consecutive.bounds hb
  -- the quad behind it would start another block
  obtain ⟨b', hb', hfirst⟩ := (h.starts (i + 1) (by omega) (by omega)).mpr
    (.inr (.inr ⟨q, hq, hjump⟩))
  have hlast := (h.consecutive.bounds hb').2.1
  have heq := h.consecutive.eq_of_mem (i := i + 1) hb hb' ⟨by omega, hi'⟩ ⟨hfirst.le, by omega⟩
  rw [heq] at hi
  omega

/-- Later quads leave the blocks as they are. -/
theorem of_precedes (h : c.DividedBy start stop blocks) (hc : c.Precedes c')
    (hstop : stop ≤ c.next) : c'.DividedBy start stop blocks where
  consecutive := h.consecutive
  starts i hi hi' := by
    rw [h.starts i hi hi', hc.isTarget i (by omega), hc.below (i - 1) (by omega)]

end DividedBy

end Code

variable {f : FunctionDecl} {label : FunctionLabel} {body : List Stmt}

/-! ### Building and dividing code -/

/-- Blocks take the quads up to where the code has been divided. -/
structure Progress.Blocked (p : Progress) : Prop where
  done_le : p.blocksDone ≤ p.code.next
  consecutive : Block.Consecutive 0 (p.blocks.flatMap Prod.snd) p.blocksDone

theorem Progress.blocked_empty : Progress.Blocked {} := ⟨Nat.le_refl _, rfl⟩

/-- A step that builds code or divides it. -/
inductive BlockStep
  | push (op : Opcode) (first second output : Option Operand)
  | patch (pending : List Nat) (target : Nat)
  | mark (quad : Nat)
  | divide (label : FunctionLabel)

namespace BlockStep

variable {p : Progress}

def run : BlockStep → Emit Unit
  | push op first second output => Emit.append op first second output
  | patch pending target => Emit.patch pending target
  | mark quad => Emit.mark quad
  | divide label => Emit.divideFunction label

/-- Only dividing the code adds blocks. -/
def IsBuilding (s : BlockStep) : Prop := ∀ label, s ≠ divide label

/-- A step that builds code leaves the blocks alone. -/
theorem IsBuilding.exists_run {s : BlockStep} (h : s.IsBuilding) (p : Progress) :
    ∃ p', s.run p = .ok () p' ∧ p'.blocks = p.blocks ∧ p'.blocksDone = p.blocksDone ∧
      p.code.next ≤ p'.code.next := by
  cases s with
  | push op first second output =>
    exact ⟨_, Emit.append_run op first second output, rfl, rfl, by simp [Progress.appended]⟩
  | patch pending target => exact ⟨_, rfl, rfl, rfl, by simp⟩
  | mark quad => exact ⟨_, rfl, rfl, rfl, Nat.le_refl _⟩
  | divide label => exact absurd rfl (h label)

/-- Dividing the code adds the blocks of the quads since it was divided last. -/
theorem divide_run (label : FunctionLabel) (p : Progress) :
    ∃ p', (divide label).run p = .ok () p' ∧ p'.code = p.code ∧
      p'.blocks = p.blocks ++ [(label, p.code.blocksFrom p.blocksDone)] ∧
      p'.blocksDone = p.code.next :=
  ⟨_, rfl, rfl, rfl, rfl⟩

/-- After a step, blocks take the quads up to where the code has been divided. -/
theorem exists_run (s : BlockStep) (hp : p.Blocked) : ∃ p', s.run p = .ok () p' ∧ p'.Blocked := by
  by_cases hs : s.IsBuilding
  · obtain ⟨p', hrun, hblocks, hdone, hle⟩ := hs.exists_run p
    exact ⟨p', hrun, hdone ▸ hp.done_le.trans hle, by rw [hblocks, hdone]; exact hp.consecutive⟩
  · obtain ⟨label, rfl⟩ : ∃ label, s = divide label := by
      simpa [IsBuilding] using hs
    obtain ⟨p', hrun, hcode, hblocks, hdone⟩ := divide_run label p
    refine ⟨p', hrun, by rw [hdone, hcode], ?_⟩
    rw [hblocks, hdone, flatMap_append, flatMap_singleton]
    exact hp.consecutive.append (blocksFrom_divide hp.done_le).consecutive

theorem exists_forM_run (steps : List BlockStep) (hp : p.Blocked) :
    ∃ p', steps.forM run p = .ok () p' ∧ p'.Blocked := by
  induction steps generalizing p with
  | nil => exact ⟨p, rfl, hp⟩
  | cons s steps ih =>
    obtain ⟨p1, hs, hp1⟩ := s.exists_run hp
    obtain ⟨p', hsteps, hp'⟩ := ih hp1
    exact ⟨p', (bind_of_ok hs).trans hsteps, hp'⟩

theorem forM_run_append {front more : List BlockStep} {p1 p' : Progress}
    (hfront : front.forM run p = .ok () p1) (hmore : more.forM run p1 = .ok () p') :
    (front ++ more).forM run p = .ok () p' := by
  induction front generalizing p with
  | nil => cases hfront; exact hmore
  | cons s front ih =>
    obtain ⟨_, p2, hs, hfront⟩ := bind_eq_ok_iff.mp hfront
    exact (bind_of_ok hs).trans (ih hfront)

theorem exists_forM_run_of_isBuilding {steps : List BlockStep} (h : ∀ s ∈ steps, s.IsBuilding)
    (p : Progress) : ∃ p', steps.forM run p = .ok () p' ∧ p'.blocks = p.blocks := by
  induction steps generalizing p with
  | nil => exact ⟨p, rfl, rfl⟩
  | cons s steps ih =>
    obtain ⟨hs, hsteps⟩ := forall_mem_cons.mp h
    obtain ⟨p1, hrun, hblocks, -⟩ := hs.exists_run p
    obtain ⟨p', hmore, hblocks'⟩ := ih hsteps p1
    exact ⟨p', (bind_of_ok hrun).trans hmore, hblocks'.trans hblocks⟩

end BlockStep

/-! ### The blocks of functions -/

/-- Functions take the quads from `start` up to `stop`, and for each of them its label and blocks
that divide its quads are recorded. -/
inductive Code.Records (c : Code) : Nat → List (FunctionLabel × List Block) → Nat → Prop
  | nil {n : Nat} : c.Records n [] n
  | cons {first last stop : Nat} {label : FunctionLabel} {blocks : List Block}
      {more : List (FunctionLabel × List Block)} (hfunction : c.IsFunction first last)
      (hlabel : c.quads[first]? = some (.start label))
      (hblocks : c.DividedBy first (last + 1) blocks) (rest : c.Records (last + 1) more stop) :
      c.Records first ((label, blocks) :: more) stop

namespace Code.Records

variable {c c' : Code} {start middle stop i : Nat}
  {records records' : List (FunctionLabel × List Block)}

theorem append (h : c.Records start records middle) (h' : c.Records middle records' stop) :
    c.Records start (records ++ records') stop := by
  induction h with
  | nil => exact h'
  | cons hfunction hlabel hblocks _ ih => exact .cons hfunction hlabel hblocks (ih h')

theorem le (h : c.Records start records stop) : start ≤ stop := by
  induction h with
  | nil => exact Nat.le_refl _
  | cons hfunction _ _ _ ih => exact (hfunction.1.le.trans (Nat.le_succ _)).trans ih

/-- Later quads leave what is recorded as it is. -/
theorem of_precedes (h : c.Records start records stop) (hc : c.Precedes c')
    (hstop : stop ≤ c.next) : c'.Records start records stop := by
  induction h with
  | nil => exact .nil
  | cons hfunction hlabel hblocks rest ih =>
    have hlt := hfunction.1
    have hle := rest.le
    refine .cons (hfunction.of_below hc.below) ?_ (hblocks.of_precedes hc (hle.trans hstop))
      (ih hstop)
    rw [hc.below _ (by omega), hlabel]

/-- The blocks of a function divide a part of the code. -/
theorem dividedBy (h : c.Records start records stop) {record : FunctionLabel × List Block}
    (hrecord : record ∈ records) : ∃ first last, c.DividedBy first last record.2 := by
  induction h with
  | nil => cases hrecord
  | cons _ _ hblocks _ ih =>
    obtain rfl | hrecord := mem_cons.mp hrecord
    · exact ⟨_, _, hblocks⟩
    · exact ih hrecord

/-- A jump target is the start of a block. -/
theorem exists_first_eq (h : c.Records start records stop) (hi : start ≤ i) (hi' : i < stop)
    (htarget : c.isTarget i) : ∃ record ∈ records, ∃ b ∈ record.2, b.first = i := by
  induction h with
  | nil => exact absurd hi' (Nat.not_lt.mpr hi)
  | @cons first last stop label blocks more _ _ hblocks _ ih =>
    by_cases hlast : i < last + 1
    · exact ⟨_, mem_cons_self, (hblocks.starts i hi hlast).mpr (.inr (.inl htarget))⟩
    · obtain ⟨record, hrecord, hfirst⟩ := ih (Nat.le_of_not_lt hlast) hi'
      exact ⟨record, mem_cons_of_mem _ hrecord, hfirst⟩

end Code.Records

/-- All functions so far have been divided into blocks, and these have been recorded. -/
structure Progress.Recorded (p : Progress) : Prop where
  done : p.blocksDone = p.code.next
  records : p.code.Records 0 p.blocks p.code.next

namespace Progress.Recorded

variable {p p' : Progress}

theorem congr (hp : p.Recorded) (hcode : p'.code = p.code) (hblocks : p'.blocks = p.blocks)
    (hdone : p'.blocksDone = p.blocksDone) : p'.Recorded := by
  refine ⟨?_, ?_⟩
  · rw [hdone, hcode, hp.done]
  · rw [hcode, hblocks]
    exact hp.records

theorem redeclares {env : Environment} (hp : p.Recorded) (h : p.Redeclares p' env) :
    p'.Recorded :=
  hp.congr (by rw [h]) (by rw [h]) (by rw [h])

end Progress.Recorded

namespace Emit

variable {p p' : Progress}

theorem introduce_recorded (hp : p.Recorded) (h : introduce f p = .ok label p') : p'.Recorded := by
  obtain ⟨_, _, _, -, hp', -⟩ := introduce_cases h
  exact hp.congr (by rw [hp']) (by rw [hp']) (by rw [hp'])

/-- A function that is closed has been divided into blocks. -/
theorem blocks_closeFunction (h : closeFunction f label body p = .ok () p') :
    p'.blocks = p.blocks ++ [(label, p'.code.blocksFrom p.blocksDone)] ∧
      p'.blocksDone = p'.code.next := by
  obtain ⟨pending, p1, p2, p3, hbody, -, hlower, hdivide, hleave⟩ := closeFunction_ok h
  have hp1 := (statements_emits f.name f.result body (Nat.zero_le _) (.refl 0 _) hbody).outside
  obtain ⟨_, _, -, -, hp2⟩ := lowerFunction_ok hlower
  have hp3 := divideFunction_ok hdivide
  obtain ⟨_, -, hp'⟩ := leaveScope_ok hleave
  have hblocks : p2.blocks = p.blocks ∧ p2.blocksDone = p.blocksDone := by
    rw [hp2, Progress.closed, hp1]
    exact ⟨rfl, rfl⟩
  rw [hp', hp3]
  exact ⟨by rw [hblocks.1, hblocks.2], rfl⟩

/-- When a function is closed its blocks have been recorded behind those of the functions before
it. -/
theorem closeFunction_recorded {header : Header} (hp : p.Recorded)
    (hheader : header.signature true = .ok f) (h : closeFunction f label body p = .ok () p') :
    p'.Recorded := by
  obtain ⟨hblocks, hdone⟩ := blocks_closeFunction h
  obtain ⟨r, -, -, -, rfl, rfl, rfl, hcloses⟩ := closeFunction_closes [] [] hheader h
  refine ⟨hdone, ?_⟩
  have hnext := next_closed r
  have hdivided : r.closed.code.DividedBy r.first (r.last + 1)
      (r.closed.code.blocksFrom r.first) := by
    have hle : r.first ≤ r.closed.code.next := hcloses.precedes.next_le
    exact hnext ▸ blocksFrom_divide hle
  have hfunction : r.closed.code.IsFunction r.first r.last := by
    have hfunction := hcloses.grows.isFunction
    rwa [next_patched] at hfunction
  have hown := Records.cons hfunction hcloses.quad_first hdivided .nil
  rw [hblocks, hcloses.code, hp.done, hnext]
  exact (hp.records.of_precedes hcloses.precedes (Nat.le_refl _)).append hown

mutual

theorem declareLocal_recorded (owner : String) : ∀ (d : Decl) {p p' : Progress},
    declareLocal owner d p = .ok () p' → p.Recorded → p'.Recorded
  | .vars names ty extents, p, p', h, hp => by
    rw [declareLocal] at h
    exact hp.redeclares (declareVariables_ok h)
  | .forward header, p, p', h, hp => by
    obtain ⟨f, label, -, hlabel⟩ := declareLocal_forward_ok h
    exact introduce_recorded hp hlabel
  | .function header locals body, p, p', h, hp => by
    obtain ⟨f, label, p1, p2, p3, hf, hlabel, hopen, hlocals, hclose⟩ :=
      declareLocal_function_ok h
    have hp2 := (introduce_recorded hp hlabel).redeclares (openFunction_redeclares hopen)
    exact closeFunction_recorded (declareLocals_recorded header.name locals hlocals hp2) hf hclose
  | .missing n, _, _, h, _ => by cases h

/-- The blocks of the functions among local declarations are recorded. -/
theorem declareLocals_recorded (owner : String) : ∀ (ds : List Decl) {p p' : Progress},
    declareLocals owner ds p = .ok () p' → p.Recorded → p'.Recorded
  | [], p, p', h, hp => by
    rw [declareLocals] at h
    cases h
    exact hp
  | d :: ds, p, p', h, hp => by
    obtain ⟨p1, hd, hds⟩ := declareLocals_cons_ok h
    exact declareLocals_recorded owner ds hds (declareLocal_recorded owner d hd hp)

end

/-- The blocks of the functions of a program are recorded. -/
theorem program_recorded {tree : Option Decl} (h : program tree {} = .ok () p) : p.Recorded := by
  obtain ⟨header, locals, body, f, label, p1, p2, p3, p4, p5, p6, p7, -, hf, -, -, hstandard,
    henter, hlabel, hentry, hopen, hlocals, hclose, hleave⟩ := program_ok h
  have hp2 : p2.Recorded := (Progress.Recorded.redeclares ⟨rfl, .nil⟩
    (forM_declare_ok hstandard)).redeclares (enterScope_ok henter)
  have hp3 := introduce_recorded hp2 hlabel
  obtain ⟨a, -, rfl⟩ := lower_ok hentry
  have hp4 : Progress.Recorded { p3 with assembly := a } := hp3.congr rfl rfl rfl
  have hp6 := declareLocals_recorded header.name locals hlocals
    (hp4.redeclares (openFunction_redeclares hopen))
  obtain ⟨_, -, hp⟩ := leaveScope_ok hleave
  exact (closeFunction_recorded hp6 hf hclose).redeclares hp

end Emit

/-! ### Programs -/

/-- The blocks that are recorded for the functions of a program. -/
structure Code.Blocks (c : Code) (records : List (FunctionLabel × List Block)) : Prop where
  /-- The blocks of a function take its quads. -/
  functions : c.Records 0 records c.next
  /-- A jump leads to the start of a block. -/
  target : ∀ (i : Nat) (q : Quad) (t : Nat), c.quads[i]? = some q → q.output = some (.target t) →
    ∃ record ∈ records, ∃ b ∈ record.2, b.first = t
  /-- Control leaves a block only after its last quad. -/
  leaves : ∀ record ∈ records, ∀ b ∈ record.2, ∀ (i : Nat) (q : Quad), b.first ≤ i → i < b.last →
    c.quads[i]? = some q → ¬ q.op.isJump

/-- The recorded blocks of a program fit its control. -/
theorem Compiles.blocks {tree : Decl} {p : Progress} {rs : List CompiledFunction}
    (h : Compiles tree p rs) (hp : p.Recorded) : p.code.Blocks p.blocks where
  functions := hp.records
  target i q t hq ht := by
    obtain ⟨r, hr, hi, hi'⟩ := h.spans.covers i (Nat.zero_le _) (lt_next_of_getElem? hq)
    obtain ⟨p1, hcloses⟩ := h.closes r hr
    have hkept := h.spans.kept r hr
    have hnext := next_closed r
    rw [hkept.below i (by omega)] at hq
    obtain ⟨-, hlast, htarget⟩ := hcloses.target hi hq ht
    rw [← hkept.isTarget t (by omega)] at htarget
    have hle := hkept.next_le
    exact hp.records.exists_first_eq (Nat.zero_le _) (by omega) htarget
  leaves record hrecord b hb i q hi hi' hq := by
    obtain ⟨first, last, hdivided⟩ := hp.records.dividedBy hrecord
    exact hdivided.not_isJump hb hi hi' hq

/-- Blocks divide code. Whatever code is built and however often it is divided on the way, the
blocks together take the quads that are there when it is divided for the last time; at that time a
block starts at the first quad that has not been in a block, at every jump target and behind every
quad that may jump. When a text compiles, the blocks of each function take its quads from the
first to the last, jumps lead to starts of blocks, and only the last quad of a block may jump. -/
theorem blocks_divide_code :
    (∀ (front rest : List BlockStep) (label : FunctionLabel), (∀ s ∈ rest, s.IsBuilding) →
      ∃ p p' blocks, front.forM BlockStep.run {} = .ok () p ∧
        (front ++ .divide label :: rest).forM BlockStep.run {} = .ok () p' ∧
        p'.blocks = p.blocks ++ [(label, blocks)] ∧
        Block.Consecutive 0 (p.blocks.flatMap Prod.snd) p.blocksDone ∧
        Block.Consecutive 0 (p'.blocks.flatMap Prod.snd) p.code.next ∧
        p.code.DividedBy p.blocksDone p.code.next blocks) ∧
    ∀ (source : String) (c : Compilation), (compile source).1 = .ok c →
      ∃ lexemes tree p, Token.scan source = .ok lexemes ∧ (Decl.read lexemes).1 = .ok tree ∧
        Emit.program (some tree) {} = .ok () p ∧ c = p.compilation tree ∧
        p.code.Blocks p.blocks := by
  refine ⟨fun front rest label hrest => ?_, fun source c hc => ?_⟩
  · obtain ⟨p, hfront, hp⟩ := BlockStep.exists_forM_run front Progress.blocked_empty
    obtain ⟨p₁, hdivide, hcode, hblocks, hdone⟩ := BlockStep.divide_run label p
    obtain ⟨p', hmore, hblocks'⟩ := BlockStep.exists_forM_run_of_isBuilding hrest p₁
    have hdivided := Code.blocksFrom_divide hp.done_le
    rw [hblocks] at hblocks'
    refine ⟨p, p', _, hfront,
      BlockStep.forM_run_append hfront ((bind_of_ok hdivide).trans hmore), hblocks',
      hp.consecutive, ?_, hdivided⟩
    rw [hblocks', flatMap_append, flatMap_singleton]
    exact hp.consecutive.append hdivided.consecutive
  · obtain ⟨lexemes, tree, p, hscan, hread, hrun, hc⟩ := emitted_of_compile hc
    obtain ⟨rs, hcompiles⟩ := Emit.program_compiles hrun
    exact ⟨lexemes, tree, p, hscan, hread, hrun, hc,
      hcompiles.blocks (Emit.program_recorded hrun)⟩

/-- A function with a loop, and a call of it. -/
def countingLoop : String :=
  "function main(): nothing;
function count(n: int): int; begin while n < 9 do n := n + 1; return n; end
begin puti(count(2)); end"

/-- A jump is led back to a quad that has been divided before, and the code is divided again. -/
theorem blocks_divide_code_countingLoop :
    (∃ p p' blocks,
      [BlockStep.push .assign none none none, .divide ⟨"f", none, 0⟩,
        .push .jump none none (some .pending), .push .assign none none none,
        .patch [1] 0].forM BlockStep.run {} = .ok () p ∧
      [BlockStep.push .assign none none none, .divide ⟨"f", none, 0⟩,
        .push .jump none none (some .pending), .push .assign none none none, .patch [1] 0,
        .divide ⟨"g", none, 0⟩, .mark 2].forM BlockStep.run {} = .ok () p' ∧
      p'.blocks = p.blocks ++ [(⟨"g", none, 0⟩, blocks)] ∧
      Block.Consecutive 0 (p.blocks.flatMap Prod.snd) p.blocksDone ∧
      Block.Consecutive 0 (p'.blocks.flatMap Prod.snd) p.code.next ∧
      p.code.DividedBy p.blocksDone p.code.next blocks) ∧
    ∃ c, (compile countingLoop).1 = .ok c ∧
      c.blocks = "_count_1: block 0: 0..=0\n_count_1: block 1: 1..=1\n_count_1: block 2: 2..=2\n" ++
        "_count_1: block 3: 3..=5\n_count_1: block 4: 6..=7\n_count_1: block 5: 8..=8\n" ++
        "_main_0: block 0: 9..=12\n_main_0: block 1: 13..=14\n_main_0: block 2: 15..=15\n" ∧
      ∃ lexemes tree p, Token.scan countingLoop = .ok lexemes ∧
        (Decl.read lexemes).1 = .ok tree ∧ Emit.program (some tree) {} = .ok () p ∧
        c = p.compilation tree ∧ p.code.Blocks p.blocks := by
  constructor
  · refine blocks_divide_code.1
      [.push .assign none none none, .divide ⟨"f", none, 0⟩, .push .jump none none (some .pending),
        .push .assign none none none, .patch [1] 0] [.mark 2] ⟨"g", none, 0⟩ ?_
    exact forall_mem_singleton.mpr fun _ => nofun
  · refine (exists_of_any (P := fun c : Compilation => c.blocks = _) ?_).imp fun c hc =>
      ⟨hc.1, of_decide_eq_true hc.2, blocks_divide_code.2 countingLoop c hc.1⟩
    decide +kernel

end BlockLang
