import BlockLang.Proofs.Emit.Declaration
import BlockLang.Proofs.Emit.Growth

/-!
# A record of patching

Patching leaves no trace of how often a quad was patched. To speak about that, the
rules of translation that patch are run with a record of the quads they patch.
Without its record such a run is the plain one, and in the record of a run no
quad stands twice.
-/

namespace BlockLang

open Emit FunctionDecl List

/-- Steps that emit code and record the quads that are patched, in order. -/
abbrev Recorded := StateT (List Nat) Emit

namespace Recorded

/-! ### Recorded translation -/

/-- Lets pending jumps lead to a quad and records them. -/
def patch (pending : List Nat) (target : Nat) : Recorded Unit := do
  modify (· ++ pending)
  Emit.patch pending target

/-- Lets pending jumps lead to the next quad and records them. -/
def patchHere (pending : List Nat) : Recorded Unit := do patch pending (← next)

/-- The code of a condition. Comparisons patch nothing. -/
def condition : Expr → Recorded Exits
  | .group _ inner => condition inner
  | .not _ operand => do
      let exits ← condition operand
      return ⟨exits.whenFalse, exits.whenTrue⟩
  | .logic _ .or left right => do
      let left ← condition left
      patchHere left.whenFalse
      let right ← condition right
      return ⟨left.whenTrue ++ right.whenTrue, right.whenFalse⟩
  | .logic _ .and left right => do
      let left ← condition left
      patchHere left.whenTrue
      let right ← condition right
      return ⟨right.whenTrue, left.whenFalse ++ right.whenFalse⟩
  | e => Emit.condition e

section Function

variable (function : String) (result : Ty)

mutual

/-- The code of a statement. Statements without statements inside patch nothing. -/
def statement : Stmt → Recorded (List Nat)
  | .block body => statements [] body
  | .ifThen c body => do
      let exits ← condition c
      patchHere exits.whenTrue
      let pending ← statement body
      patchHere exits.whenFalse
      return pending
  | .ifElse c body otherwise => do
      let exits ← condition c
      patchHere exits.whenTrue
      let pending ← statement body
      let skip ← pendingJump
      patchHere exits.whenFalse
      return pending ++ skip :: (← statement otherwise)
  | .whileDo c body => do
      let head ← next
      mark head
      let exits ← condition c
      patchHere exits.whenTrue
      patch (← statement body) head
      append .jump none none (some (.target head))
      return exits.whenFalse
  | s => Emit.statement function result s

def statements (pending : List Nat) : List Stmt → Recorded (List Nat)
  | [] => return pending
  | s :: ss => do
      patchHere pending
      statements (← statement s) ss

end

end Function

/-- The body of a function whose scope is open, up to leaving that scope. -/
def closeFunction (f : FunctionDecl) (label : FunctionLabel) (body : List Stmt) :
    Recorded Unit := do
  Emit.append .unit (some (.function label)) none none
  patchHere (← statements f.name f.result [] body)
  Emit.append .endUnit (some (.function label)) none none
  if f.result ≠ .nothing ∧ ¬ Stmt.someReturnsValue body then
    Emit.refuse ⟨.missingReturn f.name, f.location, none⟩
  Emit.lowerFunction label
  Emit.divideFunction label
  Emit.leaveScope

mutual

/-- The code of a declaration inside a function. Only functions patch. -/
def declareLocal (owner : String) : Decl → Recorded Unit
  | .function header locals body => do
      let f ← Emit.signature header true
      let label ← Emit.introduce f
      Emit.openFunction f label
      declareLocals header.name locals
      closeFunction f label body
  | d => Emit.declareLocal owner d

/-- The code of the declarations inside a function. -/
def declareLocals (owner : String) : List Decl → Recorded Unit
  | [] => return
  | d :: ds => do
      declareLocal owner d
      declareLocals owner ds

end

def program : Option Decl → Recorded Unit
  | some (.function header locals body) => do
      let f ← Emit.signature header true
      if f.parameters ≠ [] ∨ f.result ≠ .nothing then
        Emit.refuse ⟨.programHeader f.name, f.location, none⟩
      (standard.forM fun g => Emit.declare (.fn g) : Emit Unit)
      Emit.enterScope
      let label ← Emit.introduce f
      Emit.lower (Lower.entry label)
      Emit.openFunction f label
      declareLocals header.name locals
      closeFunction f label body
      Emit.leaveScope
  | tree => Emit.program tree

/-! ### Running with a record -/

section Run

variable {α β : Type} {x : Recorded α} {f : α → Recorded β} {log log' : List Nat}
  {p p' : Progress} {a : α}

theorem bind_run (h : x log p = .ok (a, log') p') : (x >>= f) log p = f a log' p' :=
  bind_of_ok h

theorem lift_run {y : Emit α} (h : y p = .ok a p') :
    (liftM y : Recorded α) log p = .ok (a, log) p' :=
  bind_of_ok h

theorem patch_run (pending : List Nat) (t : Nat) :
    patch pending t log p =
      .ok ((), log ++ pending) (p.withCode (p.code.patch pending t)) := rfl

theorem patchHere_run (pending : List Nat) :
    patchHere pending log p =
      .ok ((), log ++ pending) (p.withCode (p.code.patch pending p.code.next)) := rfl

end Run

end Recorded

/-! ### Records without duplicates -/

/-- The quads of a record exist, are pending no more, and each stands there once. -/
structure Code.PatchedOnce (c : Code) (log : List Nat) : Prop where
  nodup : log.Nodup
  patched : ∀ i ∈ log, i < c.next ∧ ¬ c.IsPending i

namespace Code.PatchedOnce

variable {c c' : Code} {log l : List Nat}

theorem nil (c : Code) : c.PatchedOnce [] := ⟨nodup_nil, nofun⟩

/-- New quads do not matter for a record. -/
theorem of_below (h : c.PatchedOnce log) (hnext : c.next ≤ c'.next)
    (hbelow : ∀ i, i < c.next → c'.quads[i]? = c.quads[i]?) : c'.PatchedOnce log where
  nodup := h.nodup
  patched i hi := by
    obtain ⟨hlt, hpending⟩ := h.patched i hi
    exact ⟨Nat.lt_of_lt_of_le hlt hnext, fun hp => hpending
      ((isPending_congr (hbelow i hlt)).mp hp)⟩

theorem grows {env : Environment} {lo : Nat} (h : c.PatchedOnce log)
    (hc : c.Grows env lo c' l) : c'.PatchedOnce log := h.of_below hc.next_le hc.below

theorem push (h : c.PatchedOnce log) (q : Quad) : (c.push q).PatchedOnce log :=
  h.of_below (by simp) fun _ hi => getElem?_push_of_lt hi

/-- Pending jumps that are patched are new to the record. -/
theorem patch (h : c.PatchedOnce log) (hl : l.Nodup) (hpending : ∀ i ∈ l, c.IsPending i)
    (t : Nat) : (c.patch l t).PatchedOnce (log ++ l) where
  nodup := nodup_append.mpr ⟨h.nodup, hl, fun i hi j hj hij =>
    (h.patched i hi).2 (hij ▸ hpending j hj)⟩
  patched i hi := by
    rw [next_patch, isPending_patch]
    rcases mem_append.mp hi with hi | hi
    · obtain ⟨hlt, hnot⟩ := h.patched i hi
      exact ⟨hlt, fun hp => hnot hp.1⟩
    · exact ⟨(hpending i hi).lt_next, fun hp => hp.2 hi⟩

end Code.PatchedOnce

namespace Progress.Emits

variable {lo t : Nat} {p p1 : Progress} {l log a b : List Nat}

/-- Jumps that a translation has left pending may be patched. -/
theorem patchedOnce (h : p.Emits lo p1 l) (hlog : p1.code.PatchedOnce log)
    (hl : l.Perm (a ++ b)) : (p1.code.patch a t).PatchedOnce (log ++ a) := by
  refine hlog.patch ?_ (fun i hi => ?_) t
  · exact (nodup_append.mp (hl.nodup_iff.mp h.grows.nodup)).1
  · exact ((h.grows.mem_iff i).mp (hl.mem_iff.mpr (mem_append_left b hi))).2

end Progress.Emits

namespace Recorded

open Emit (condition_emits statement_emits statements_emits)

variable {p p' : Progress} {log : List Nat}

/-- A recorded condition does what the plain one does and patches no quad twice. -/
theorem condition_run {e : Expr} {exits : Exits} (hlog : p.code.PatchedOnce log)
    (h : Emit.condition e p = .ok exits p') :
    ∃ log', condition e log p = .ok (exits, log') p' ∧ p'.code.PatchedOnce log' := by
  induction h using Emit.condition_induction generalizing log with
  | group ih =>
    rw [condition]
    exact ih hlog
  | not ih =>
    obtain ⟨log', hrun, hlog'⟩ := ih hlog
    refine ⟨log', ?_, hlog'⟩
    rw [condition, bind_run hrun]
    rfl
  | @logic _ k left _ _ a _ _ _ ha _ _ ihleft ihright =>
    obtain ⟨log1, hleft, hlog1⟩ := ihleft hlog
    -- what is patched between the sides is pending since the left side
    have e1 := condition_emits left (Nat.zero_le _) ha
    obtain ⟨log2, hright, hlog2⟩ := ihright (e1.patchedOnce hlog1 (a.perm_when k.settles))
    refine ⟨log2, ?_, hlog2⟩
    cases k <;>
    · rw [condition, bind_run hleft, bind_run (patchHere_run _)]
      exact bind_run hright
  | compare h => exact ⟨log, lift_run h, hlog.grows (condition_emits _ (Nat.zero_le _) h).grows⟩

section Statement

variable (function : String) (result : Ty)

variable {function result} in
/-- Statements that patch nothing leave the record as it is. -/
private theorem statement_lift {s : Stmt} {pending : List Nat} (hlog : p.code.PatchedOnce log)
    (h : Emit.statement function result s p = .ok pending p')
    (hs : statement function result s = liftM (Emit.statement function result s)) :
    ∃ log', statement function result s log p = .ok (pending, log') p' ∧
      p'.code.PatchedOnce log' := by
  have e := statement_emits function result s (Nat.zero_le _) h
  exact ⟨log, hs ▸ lift_run h, hlog.grows e.grows⟩

mutual

/-- A recorded statement does what the plain one does and patches no quad twice. -/
theorem statement_run : ∀ (s : Stmt) {p p' : Progress} {pending log : List Nat},
    p.code.PatchedOnce log → Emit.statement function result s p = .ok pending p' →
      ∃ log', statement function result s log p = .ok (pending, log') p' ∧
        p'.code.PatchedOnce log'
  | .block body, p, p', pending, log, hlog, h => by
    rw [Emit.statement] at h
    rw [statement]
    exact statements_run body hlog (.refl 0 p) h
  | .ifThen c body, p, p', pending, log, hlog, h => by
    obtain ⟨exits, p1, p2, hc, hbody, rfl⟩ := Emit.statement_ifThen_ok h
    have e1 := condition_emits c (Nat.zero_le _) hc
    obtain ⟨log1, hcond, hlog1⟩ := condition_run hlog hc
    obtain ⟨log2, hrun, hlog2⟩ := statement_run body (e1.patchedOnce hlog1 (.refl _)) hbody
    have e2 := guarded_emits hc hbody
    refine ⟨log2 ++ exits.whenFalse, ?_, e2.patchedOnce hlog2 (.refl _)⟩
    rw [statement, bind_run hcond, bind_run (patchHere_run _), bind_run hrun,
      bind_run (patchHere_run _)]
    rfl
  | .ifElse c body otherwise, p, p', pending, log, hlog, h => by
    obtain ⟨exits, p1, l, p2, l', p3, hc, hbody, rfl, helse, rfl⟩ := Emit.statement_ifElse_ok h
    have e1 := condition_emits c (Nat.zero_le _) hc
    obtain ⟨log1, hcond, hlog1⟩ := condition_run hlog hc
    obtain ⟨log2, hrun, hlog2⟩ := statement_run body (e1.patchedOnce hlog1 (.refl _)) hbody
    have e2 := guarded_emits hc hbody
    -- the jump behind the body is new, so it is not among the patched quads
    have e3 := e2.appendPending (q := Emit.jumpQuad) (.inl rfl) rfl
    rw [append_assoc] at e3
    obtain ⟨log3, hother, hlog3⟩ :=
      statement_run otherwise (e3.patchedOnce (hlog2.push _) (.refl _)) helse
    refine ⟨log3, ?_, hlog3⟩
    rw [statement, bind_run hcond, bind_run (patchHere_run _), bind_run hrun,
      bind_run (lift_run Emit.pendingJump_run), bind_run (patchHere_run _)]
    exact bind_run hother
  | .whileDo c body, p, p', pending, log, hlog, h => by
    obtain ⟨exits, p1, l, p2, hc, hbody, rfl, rfl⟩ := Emit.statement_whileDo_ok h
    -- a mark changes no quad
    have hmarked : (p.withCode (p.code.mark p.code.next)).code.PatchedOnce log :=
      hlog.of_below (Nat.le_refl _) fun _ _ => rfl
    have e1 := condition_emits c (Nat.zero_le _) hc
    obtain ⟨log1, hcond, hlog1⟩ := condition_run hmarked hc
    obtain ⟨log2, hrun, hlog2⟩ := statement_run body (e1.patchedOnce hlog1 (.refl _)) hbody
    have e2 := guarded_emits hc hbody
    refine ⟨log2 ++ l, ?_, (e2.patchedOnce hlog2 perm_append_comm).push _⟩
    rw [statement, bind_run (lift_run Emit.next_run), bind_run (lift_run (Emit.mark_run _)),
      bind_run hcond, bind_run (patchHere_run _), bind_run hrun, bind_run (patch_run _ _),
      bind_run (lift_run (Emit.append_run _ _ _ _))]
    rfl
  | .empty, p, p', pending, log, hlog, h => statement_lift hlog h rfl
  | .assign .., p, p', pending, log, hlog, h => statement_lift hlog h rfl
  | .call e, p, p', pending, log, hlog, h => statement_lift hlog h rfl
  | .returnValue .., p, p', pending, log, hlog, h => statement_lift hlog h rfl
  | .returnNothing l, p, p', pending, log, hlog, h => statement_lift hlog h rfl
  | .missing n, p, p', pending, log, _, h => by cases h

/-- Recorded statements do what the plain ones do and patch no quad twice. -/
theorem statements_run : ∀ (ss : List Stmt) {p0 p p' : Progress} {pending l log : List Nat},
    p.code.PatchedOnce log → p0.Emits 0 p l →
      Emit.statements function result l ss p = .ok pending p' →
      ∃ log', statements function result l ss log p = .ok (pending, log') p' ∧
        p'.code.PatchedOnce log'
  | [], p0, p, p', pending, l, log, hlog, _, h => by
    rw [Emit.statements] at h
    cases h
    exact ⟨log, rfl, hlog⟩
  | s :: ss, p0, p, p', pending, l, log, hlog, h0, h => by
    obtain ⟨l', p1, hs, hss⟩ := Emit.statements_cons_ok h
    have hl := h0.patchedOnce (t := p.code.next) hlog (.of_eq l.append_nil.symm)
    obtain ⟨log1, hrun, hlog1⟩ := statement_run s hl hs
    have e1 := statement_emits function result s (Nat.zero_le _) hs
    obtain ⟨log2, hrest, hlog2⟩ := statements_run ss hlog1 e1 hss
    refine ⟨log2, ?_, hlog2⟩
    rw [statements, bind_run (patchHere_run _), bind_run hrun, hrest]

end

end Statement

/-! ### Functions -/

theorem closeFunction_run {f : FunctionDecl} {label : FunctionLabel} {body : List Stmt}
    (hlog : p.code.PatchedOnce log) (h : Emit.closeFunction f label body p = .ok () p') :
    ∃ log', closeFunction f label body log p = .ok ((), log') p' ∧ p'.code.PatchedOnce log' := by
  obtain ⟨pending, p1, p2, p3, hbody, hresult, hlower, hdivide, hleave⟩ :=
    Emit.closeFunction_ok h
  obtain ⟨log1, hrun, hlog1⟩ :=
    statements_run f.name f.result body (hlog.push (.start label)) (.refl 0 _) hbody
  have e := statements_emits f.name f.result body (Nat.zero_le _) (.refl 0 _) hbody
  refine ⟨log1 ++ pending, ?_, ?_⟩
  -- the body has passed the check for a return
  · have hnot : ¬ (f.result ≠ .nothing ∧ ¬ Stmt.someReturnsValue body) := by
      rintro ⟨hne, hno⟩
      exact hresult.elim hne hno
    rw [closeFunction, bind_run (lift_run (Emit.append_run _ _ _ _))]
    change (statements f.name f.result [] body >>= _) log (p.appended (.start label)) = _
    rw [bind_run hrun, bind_run (patchHere_run _),
      bind_run (lift_run (Emit.append_run _ _ _ _)), if_neg hnot]
    change (liftM (Emit.lowerFunction label) >>= _ : Recorded Unit) _ (p1.closed pending label) = _
    rw [bind_run (lift_run hlower), bind_run (lift_run hdivide)]
    exact lift_run hleave
  · rw [Emit.code_leaveScope hleave, Emit.divideFunction_ok hdivide]
    obtain ⟨_, _, -, -, hp2⟩ := Emit.lowerFunction_ok hlower
    rw [hp2]
    exact (e.patchedOnce hlog1 (.of_eq pending.append_nil.symm)).push _

mutual

theorem declareLocal_run (owner : String) : ∀ (d : Decl) {p p' : Progress} {log : List Nat},
    p.code.PatchedOnce log → Emit.declareLocal owner d p = .ok () p' →
      ∃ log', declareLocal owner d log p = .ok ((), log') p' ∧ p'.code.PatchedOnce log'
  | .vars names ty extents, p, p', log, hlog, h => by
    refine ⟨log, lift_run h, ?_⟩
    rw [Emit.declareLocal] at h
    rwa [Emit.code_declareVariables h]
  | .forward header, p, p', log, hlog, h => by
    obtain ⟨f, label, -, hlabel⟩ := Emit.declareLocal_forward_ok h
    exact ⟨log, lift_run h, by rwa [Emit.code_introduce hlabel]⟩
  | .function header locals body, p, p', log, hlog, h => by
    obtain ⟨f, label, p1, p2, p3, hf, hlabel, hopen, hlocals, hclose⟩ :=
      Emit.declareLocal_function_ok h
    have hcode : p2.code = p.code :=
      (Emit.code_openFunction hopen).trans (Emit.code_introduce hlabel)
    obtain ⟨log1, hrun, hlog1⟩ := declareLocals_run header.name locals (hcode ▸ hlog) hlocals
    obtain ⟨log2, hbody, hlog2⟩ := closeFunction_run hlog1 hclose
    refine ⟨log2, ?_, hlog2⟩
    rw [declareLocal, bind_run (lift_run (Emit.signature_run hf)), bind_run (lift_run hlabel),
      bind_run (lift_run hopen), bind_run hrun, hbody]
  | .missing n, p, p', log, _, h => by cases h

theorem declareLocals_run (owner : String) : ∀ (ds : List Decl) {p p' : Progress}
    {log : List Nat}, p.code.PatchedOnce log → Emit.declareLocals owner ds p = .ok () p' →
      ∃ log', declareLocals owner ds log p = .ok ((), log') p' ∧ p'.code.PatchedOnce log'
  | [], p, p', log, hlog, h => by
    rw [Emit.declareLocals] at h
    cases h
    exact ⟨log, rfl, hlog⟩
  | d :: ds, p, p', log, hlog, h => by
    obtain ⟨p1, hd, hds⟩ := Emit.declareLocals_cons_ok h
    obtain ⟨log1, hrun, hlog1⟩ := declareLocal_run owner d hlog hd
    obtain ⟨log2, hrest, hlog2⟩ := declareLocals_run owner ds hlog1 hds
    exact ⟨log2, by rw [declareLocals, bind_run hrun, hrest], hlog2⟩

end

/-- A recorded translation of a program does what the plain one does and patches no
quad twice. -/
theorem program_run {tree : Option Decl} (hlog : p.code.PatchedOnce log)
    (h : Emit.program tree p = .ok () p') :
    ∃ log', program tree log p = .ok ((), log') p' ∧ p'.code.PatchedOnce log' := by
  obtain ⟨header, locals, body, f, label, p1, p2, p3, p4, p5, p6, p7, rfl, hf, hparameters,
    hresult, hstandard, henter, hlabel, hentry, hopen, hlocals, hclose, hleave⟩ :=
    Emit.program_ok h
  -- what comes before the local declarations leaves the code alone
  obtain ⟨_, -, hp4⟩ := lower_ok hentry
  have hcode : p5.code = p.code := by
    rw [code_openFunction hopen, hp4, code_introduce hlabel, enterScope_ok henter,
      code_forM_declare hstandard]
  obtain ⟨log1, hrun, hlog1⟩ := declareLocals_run header.name locals (hcode ▸ hlog) hlocals
  obtain ⟨log2, hbody, hlog2⟩ := closeFunction_run hlog1 hclose
  refine ⟨log2, ?_, by rwa [Emit.code_leaveScope hleave]⟩
  have hnot : ¬ (f.parameters ≠ [] ∨ f.result ≠ .nothing) := by simp [hparameters, hresult]
  rw [program, bind_run (lift_run (Emit.signature_run hf)), if_neg hnot]
  change (liftM (standard.forM fun g => Emit.declare (.fn g)) >>= _ :
    Recorded Unit) log p = _
  rw [bind_run (lift_run hstandard), bind_run (lift_run henter), bind_run (lift_run hlabel),
    bind_run (lift_run hentry), bind_run (lift_run hopen), bind_run hrun, bind_run hbody]
  exact lift_run hleave

end Recorded

end BlockLang
