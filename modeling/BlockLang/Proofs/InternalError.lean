import BlockLang.Proofs.Assembly.Lower
import BlockLang.Proofs.Compile
import BlockLang.Proofs.Emit.Declaration
import BlockLang.Proofs.Emit.Growth
import BlockLang.Proofs.Grammar.Sound
import BlockLang.Proofs.Program.Erasure

/-!
# Internal errors

A tree that has been read is proper, so emitting its code can only be refused; the quads of a body
are well formed and none of them is pending, so they can be lowered. What is left is a function
whose variables and temporaries do not fit into a frame.
-/

namespace BlockLang

open Emit BlockLang.Frame FunctionDecl List

variable {e : CompileError} {frame : Frame} {f : FunctionDecl} {label : FunctionLabel}
  {pending : List Nat} {body : List Stmt} {p1 : Progress} {function : String} {result : Ty}

namespace Progress

/-- All functions that are complete have been lowered, and nothing is remembered for a
call. -/
structure Settled (p : Progress) : Prop where
  env : p.env.Sound
  idle : p.assembly.Idle
  quadsDone : p.assembly.quadsDone = p.code.next
  tempsDone : p.assembly.tempsDone = p.code.temps.size

/-- The variables and the temporaries of the function that is lowered next do not fit
into a frame, and that is the error. The scopes are well kept nevertheless. -/
def Overflows (p : Progress) (e : CompileError) : Prop :=
  ∃ label, e = .internal (.frameTooLarge label) ∧
    layout? (p.env.locals p.env.scope) (newTemps p) = none ∧ p.env.Sound

end Progress

namespace Emit

variable {p p' : Progress}

/-! ### Lowering a complete function -/

theorem mem_newTemps {n : Nat} (hlo : p.assembly.tempsDone ≤ n) (hn : n < p.code.temps.size) :
    n ∈ (newTemps p).map Prod.fst := by
  refine mem_map.mpr ⟨(n, p.code.temps[n]), mem_map.mpr ?_, rfl⟩
  refine ⟨(p.code.temps[n], n), mk_mem_zipIdx_iff_le_and_getElem?_sub.mpr ⟨hlo, ?_⟩, rfl⟩
  rw [getElem?_drop, Nat.add_sub_cancel' hlo, Array.getElem?_toList,
    Array.getElem?_eq_getElem hn]

/-- A body does not change the names and the assembly. -/
theorem closed_eq {q : Quad} (pending' : List Nat) (label : FunctionLabel)
    (h : statements function result [] body (p.appended q) = .ok pending p1) :
    (p1.closed pending' label).env = p.env ∧
      (p1.closed pending' label).assembly = p.assembly := by
  have e := statements_emits function result body (Nat.zero_le _) (.refl 0 _) h
  exact ⟨e.env_eq, e.assembly_eq⟩

variable (hp : p.Settled)

include hp

/-- A frame that is laid out for the temporaries of a function has places for them. -/
theorem site_sound (hassembly : p1.assembly = p.assembly)
    (hframe : layout? (p.env.locals p.env.scope) (newTemps p1) = some frame) :
    FunctionSite.Sound ⟨p1.code, p.env, label, frame⟩ p.code.temps.size := by
  refine ⟨hp.env, fun v hv => variableOffset?_isSome hframe hv, fun n hlo hn => ?_⟩
  refine tempOffset?_isSome hframe (mem_newTemps ?_ hn)
  rw [hassembly, hp.tempsDone]
  exact hlo

/-- The quads of a function can be lowered when its last quad is there, if there is a
frame for it. -/
theorem lowerBody_run
    (hbody : statements function result [] body (p.appended (.start label)) = .ok pending p1)
    (hframe : layout? (p.env.locals p.env.scope) (newTemps (p1.closed pending label)) =
      some frame) :
    ∃ a, Lower.body ⟨(p1.closed pending label).code, p.env, label, frame⟩ p.assembly =
        .ok () a ∧ a.Idle ∧ a.quadsDone = (p1.closed pending label).code.next ∧
      a.tempsDone = (p1.closed pending label).code.temps.size := by
  have hlo : p.code.temps.size ≤ (p.appended (.start label)).code.temps.size := Nat.le_refl _
  have e := statements_emits function result body hlo (.refl _ _) hbody
  have hgrows := (e.patchHere (.of_eq pending.append_nil.symm)).grows
  refine Lower.body_run (site_sound hp e.assembly_eq hframe) hp.idle (fun i q hi hq => ?_)
    fun i q hi hq hop => ?_
  · rw [hp.quadsDone] at hi
    exact hgrows.function_wellFormed hi hq
  · rw [hp.quadsDone] at hi
    exact hgrows.function_calls hi hq hop

omit hp in
/-- Lowering a function fails in one of two ways. -/
theorem lowerFunction_error (hp : p.env.Sound) (h : lowerFunction label p = .error e p') :
    p'.Overflows e ∨ ∃ frame err a,
      layout? (p.env.locals p.env.scope) (newTemps p) = some frame ∧
      Lower.body ⟨p.code, p.env, label, frame⟩ p.assembly = .error err a := by
  unfold lowerFunction at h
  rw [bind_of_ok get_run] at h
  cases hframe : layout? (p.env.locals p.env.scope) (newTemps p) with
  | none =>
    have hsite : lower (Lower.site p.code p.env label) p =
        .error (.internal (.frameTooLarge label)) p := by
      rw [lower, site_run, hframe]
    rcases bind_eq_error_iff.mp h with h | ⟨_, q, hq, -⟩
    · rw [hsite] at h
      cases h
      exact .inl ⟨label, rfl, hframe, hp⟩
    · rw [hsite] at hq
      cases hq
  | some frame =>
    have hsite : lower (Lower.site p.code p.env label) p =
        .ok ⟨p.code, p.env, label, frame⟩ p := by
      rw [lower, site_run, hframe]
    rw [bind_of_ok hsite] at h
    obtain h | ⟨_, q, hq, h⟩ := bind_eq_error_iff.mp h
    · cases h
    · cases hq
      unfold lower at h
      cases hbody : Lower.body ⟨p.code, p.env, label, frame⟩ p.assembly with
      | ok u a => simp only [hbody] at h; cases h
      | error err a => exact .inr ⟨frame, err, a, rfl, hbody⟩

/-! ### What steps of declarations preserve -/

theorem settled_redeclares {env : Environment} (henv : env.Sound) (h : p.Redeclares p' env) :
    p'.Settled := by
  rw [h]
  exact ⟨henv, hp.idle, hp.quadsDone, hp.tempsDone⟩

theorem enterScope_settled (h : enterScope p = .ok () p') : p'.Settled :=
  settled_redeclares hp hp.env.enter (enterScope_ok h)

theorem leaveScope_settled (h : leaveScope p = .ok () p') : p'.Settled := by
  obtain ⟨env, henv, hp'⟩ := leaveScope_ok h
  exact settled_redeclares hp (hp.env.leave henv) hp'

theorem openFunction_settled (h : openFunction f label p = .ok () p') : p'.Settled := by
  obtain ⟨p1, hp1, hparameters⟩ := openFunction_ok h
  refine forM_preserves (fun q _ p2 p3 hq hp2 => ?_) hparameters
    (settled_redeclares hp hp.env.enter hp1)
  obtain ⟨env, henv, hp3⟩ := declare_ok hq
  exact settled_redeclares hp2 (hp2.env.declare_param henv) hp3

theorem declareVariables_settled {ty : Ty} {extents : List Nat} {xs : List DeclaredName}
    (h : xs.forM (declareVariable function ty extents) p = .ok () p') : p'.Settled := by
  refine forM_preserves (fun x _ p2 p3 hx hp2 => ?_) h hp
  obtain ⟨env, henv, hp3, hfits⟩ := declareVariable_ok hx
  exact settled_redeclares hp2 (hp2.env.declare_var henv hfits) hp3

theorem standard_settled (h : (standard.forM fun g => declare (.fn g)) p = .ok () p') :
    p'.Settled := by
  have hscalars : ∀ g ∈ standard, ∀ q ∈ g.parameters, q.byReference = false →
      q.isOpen = false ∧ q.extents = [] := by decide
  refine forM_preserves (fun g hg p2 p3 hq hp2 => ?_) h hp
  obtain ⟨env, henv, hp3⟩ := declare_ok hq
  exact settled_redeclares hp2 (hp2.env.declare_fn (hscalars g hg) henv) hp3

omit hp

/-! ### Headers -/

theorem forall₂_of_mapM_ok {α β : Type} {f : α → Except SemanticError β} {xs : List α}
    {ys : List β} (h : xs.mapM f = .ok ys) : Forall₂ (fun x y => f x = .ok y) xs ys := by
  refine forall₂_of_mapM (fun {_ _ x _ _} h => ?_) Except.ok.inj h
  cases x with
  | error e => cases h
  | ok a => exact ⟨a, rfl, h⟩

/-- The parameters of a function are those of the groups in its header, and arrays are passed by
reference. -/
theorem exists_group {header : Header} {isDefined : Bool} (hf : header.signature isDefined = .ok f)
    {q : Parameter} (hq : q ∈ f.parameters) :
    ∃ group ∈ header.groups, q.ty = group.ty ∧ q.extents = group.extents ∧
      (q.byReference = false → q.isOpen = false ∧ q.extents = []) := by
  obtain ⟨groups, hgroups, rfl⟩ := exists_groups hf
  obtain ⟨qs, hqs, hq⟩ := mem_flatten.mp hq
  obtain ⟨group, hmem, hgroup⟩ := exists_of_forall₂ (forall₂_of_mapM_ok hgroups) hqs
  obtain ⟨x, -, hx⟩ := exists_of_forall₂ (forall₂_of_mapM_ok hgroup) hq
  split at hx
  · cases hx
  · rename_i hscalar
    cases hx
    refine ⟨group, hmem, rfl, rfl, fun href => ?_⟩
    have hvalue : group.byReference = false := href
    simpa [hvalue] using hscalar

theorem introduce_settled {header : Header} {isDefined : Bool} (hp : p.Settled)
    (hf : header.signature isDefined = .ok f) (h : introduce f p = .ok label p') : p'.Settled := by
  obtain ⟨serial, env, functions, henv, -, hp'⟩ := introduce_ok h
  have hscalars : ScalarParameters f.parameters := fun q hq => by
    obtain ⟨group, -, -, -, hscalar⟩ := exists_group hf hq
    exact hscalar
  rw [hp']
  exact ⟨hp.env.declare_fn (f := { f with serial }) hscalars henv, hp.idle, hp.quadsDone,
    hp.tempsDone⟩

/-! ### Functions -/

section Close

variable {f : FunctionDecl} {label : FunctionLabel} {body : List Stmt}

theorem closeFunction_settled (hp : p.Settled) (h : closeFunction f label body p = .ok () p') :
    p'.Settled := by
  obtain ⟨pending, p1, p2, p3, hbody, -, hlower, hdivide, hleave⟩ := closeFunction_ok h
  obtain ⟨frame, a, hframe, hrun, hp2⟩ := lowerFunction_ok hlower
  obtain ⟨henv, hassembly⟩ := closed_eq pending label hbody
  rw [henv] at hframe hrun
  rw [hassembly] at hrun
  obtain ⟨a', hrun', hidle, hquads, htemps⟩ := lowerBody_run hp hbody hframe
  obtain rfl : a = a' := by
    rw [hrun] at hrun'
    cases hrun'
    rfl
  refine leaveScope_settled ?_ hleave
  rw [divideFunction_ok hdivide, hp2]
  exact ⟨henv ▸ hp.env, hidle, hquads, htemps⟩

/-- A function fails because it is refused or because it does not fit into a frame. -/
theorem closeFunction_error (hp : p.Settled) (hbody : Stmt.AreProper body)
    (h : closeFunction f label body p = .error e p') :
    (∃ cause, e = .semantic cause) ∨ p'.Overflows e := by
  unfold closeFunction at h
  rw [bind_of_ok (append_run _ _ _ _)] at h
  rcases bind_eq_error_iff.mp h with h | ⟨pending, p1, hrun, h1⟩
  · exact .inl ((same_statements f.name f.result [] body fun _ => hbody).onlyRefuses _ e p' h)
  rw [bind_of_ok (patchHere_run _), bind_of_ok (append_run _ _ _ _)] at h1
  dsimp only at h1
  split at h1
  · cases h1
    exact .inl ⟨_, rfl⟩
  rcases bind_eq_error_iff.mp h1 with hlower | ⟨_, p2, hlower, h2⟩
  -- the quads of the body can be lowered, so it is the frame that does not fit
  · obtain ⟨henv, hassembly⟩ := closed_eq pending label hrun
    refine .inr ((lowerFunction_error (henv ▸ hp.env) hlower).resolve_right ?_)
    rintro ⟨frame, err, a, hframe, hfail⟩
    change layout? ((p1.closed pending label).env.locals (p1.closed pending label).env.scope)
      (newTemps (p1.closed pending label)) = some frame at hframe
    change Lower.body ⟨(p1.closed pending label).code, (p1.closed pending label).env, label, frame⟩
      (p1.closed pending label).assembly = .error err a at hfail
    rw [henv] at hframe hfail
    rw [hassembly] at hfail
    obtain ⟨a', hok, -⟩ := lowerBody_run hp hrun hframe
    rw [hok] at hfail
    cases hfail
  rcases bind_eq_error_iff.mp h2 with hdivide | ⟨_, p3, hdivide, hleave⟩
  · cases hdivide
  · exact .inl (same_leaveScope.onlyRefuses p3 e p' hleave)

end Close

/-! ### Declarations and programs -/

mutual

theorem declareLocal_settled (owner : String) : ∀ (d : Decl) {p p' : Progress},
    p.Settled → declareLocal owner d p = .ok () p' → p'.Settled
  | .vars names ty extents, p, p', hp, h => by
    rw [declareLocal] at h
    exact declareVariables_settled hp h
  | .forward header, p, p', hp, h => by
    obtain ⟨f, label, hf, hlabel⟩ := declareLocal_forward_ok h
    exact introduce_settled hp hf hlabel
  | .function header locals body, p, p', hp, h => by
    obtain ⟨f, label, p1, p2, p3, hf, hlabel, hopen, hlocals, hclose⟩ :=
      declareLocal_function_ok h
    have hp1 := introduce_settled hp hf hlabel
    have hp3 := declareLocals_settled header.name locals (openFunction_settled hp1 hopen) hlocals
    exact closeFunction_settled hp3 hclose
  | .missing n, p, p', _, h => by cases h

theorem declareLocals_settled (owner : String) : ∀ (ds : List Decl) {p p' : Progress},
    p.Settled → declareLocals owner ds p = .ok () p' → p'.Settled
  | [], p, p', hp, h => by
    rw [declareLocals] at h
    cases h
    exact hp
  | d :: ds, p, p', hp, h => by
    obtain ⟨p1, hd, hds⟩ := declareLocals_cons_ok h
    exact declareLocals_settled owner ds (declareLocal_settled owner d hp hd) hds

end

mutual

/-- A proper declaration fails because it is refused or because a function does not
fit into a frame. -/
theorem declareLocal_error (owner : String) : ∀ (d : Decl) {p p' : Progress} {e : CompileError},
    p.Settled → d.IsProper → declareLocal owner d p = .error e p' →
      (∃ cause, e = .semantic cause) ∨ p'.Overflows e
  | .vars names ty extents, p, p', e, _, _, h => by
    rw [declareLocal] at h
    exact .inl ((same_vars owner ty extents names).onlyRefuses p e p' h)
  | .forward header, p, p', e, _, _, h => by
    rw [declareLocal] at h
    rcases bind_eq_error_iff.mp h with h | ⟨f, p1, -, h1⟩
    · exact .inl ((mirrors_signature header false).onlyRefuses p e p' h)
    rcases bind_eq_error_iff.mp h1 with h | ⟨_, p2, -, h2⟩
    · exact .inl ((same_introduce f).onlyRefuses p1 e p' h)
    · cases h2
  | .function header locals body, p, p', e, hp, hproper, h => by
    obtain ⟨hlocals, hbody⟩ := hproper
    rw [declareLocal] at h
    rcases bind_eq_error_iff.mp h with h | ⟨f, p1, hsignature, h1⟩
    · exact .inl ((mirrors_signature header true).onlyRefuses p e p' h)
    obtain ⟨rfl, hf⟩ := signature_ok hsignature
    rcases bind_eq_error_iff.mp h1 with h | ⟨label, p2, hlabel, h2⟩
    · exact .inl ((same_introduce f).onlyRefuses _ e p' h)
    have hp2 := introduce_settled hp hf hlabel
    rcases bind_eq_error_iff.mp h2 with h | ⟨_, p3, hopen, h3⟩
    · exact .inl ((same_openFunction f label).onlyRefuses p2 e p' h)
    have hp3 := openFunction_settled hp2 hopen
    rcases bind_eq_error_iff.mp h3 with h | ⟨_, p4, hrun, hclose⟩
    · exact declareLocals_error header.name locals hp3 hlocals h
    · exact closeFunction_error (declareLocals_settled header.name locals hp3 hrun) hbody hclose
  | .missing n, _, _, _, _, hproper, _ => hproper.elim

theorem declareLocals_error (owner : String) : ∀ (ds : List Decl) {p p' : Progress}
    {e : CompileError}, p.Settled → Decl.AreProper ds → declareLocals owner ds p = .error e p' →
      (∃ cause, e = .semantic cause) ∨ p'.Overflows e
  | [], p, p', e, _, _, h => by
    rw [declareLocals] at h
    cases h
  | d :: ds, p, p', e, hp, hproper, h => by
    obtain ⟨hd, hds⟩ := hproper
    rw [declareLocals] at h
    rcases bind_eq_error_iff.mp h with h | ⟨_, p1, hrun, h1⟩
    · exact declareLocal_error owner d hp hd h
    · exact declareLocals_error owner ds (declareLocal_settled owner d hp hrun) hds h1

end

theorem entry_settled (hp : p.Settled) (h : lower (Lower.entry label) p = .ok () p') :
    p'.Settled := by
  obtain ⟨a, ha, rfl⟩ := lower_ok h
  -- Only the lines change, whichever they are.
  have hlines : ∀ lines, Lower.emitAll lines p.assembly = .ok () a →
      Progress.Settled { p with assembly := a } := by
    intro lines hrun
    cases hrun
    exact ⟨hp.env, ⟨hp.idle.1, hp.idle.2⟩, hp.quadsDone, hp.tempsDone⟩
  exact hlines _ ha

/-- A program that is proper fails because it is refused or because a function does
not fit into a frame. -/
theorem program_error {tree : Decl} (hp : p.Settled) (hfunction : tree.IsFunction)
    (hproper : tree.IsProper) (h : program (some tree) p = .error e p') :
    (∃ cause, e = .semantic cause) ∨ p'.Overflows e := by
  cases tree with
  | function header locals body =>
    obtain ⟨hlocals, hbody⟩ := hproper
    unfold program at h
    rcases bind_eq_error_iff.mp h with h | ⟨f, p1, hsignature, h1⟩
    · exact .inl ((mirrors_signature header true).onlyRefuses p e p' h)
    obtain ⟨rfl, hf⟩ := signature_ok hsignature
    split at h1
    · cases h1
      exact .inl ⟨_, rfl⟩
    -- every step is reached with the steps before it settled
    rcases bind_eq_error_iff.mp h1 with h | ⟨_, p2, hstandard, h2⟩
    · exact .inl ((same_forM fun g _ => same_declare (.fn g)).onlyRefuses _ e p' h)
    have hp2 := standard_settled hp hstandard
    rcases bind_eq_error_iff.mp h2 with h | ⟨_, p3, henter, h3⟩
    · exact .inl (same_enterScope.onlyRefuses p2 e p' h)
    have hp3 := enterScope_settled hp2 henter
    rcases bind_eq_error_iff.mp h3 with h | ⟨label, p4, hlabel, h4⟩
    · exact .inl ((same_introduce f).onlyRefuses p3 e p' h)
    have hp4 := introduce_settled hp3 hf hlabel
    rcases bind_eq_error_iff.mp h4 with h | ⟨_, p5, hentry, h5⟩
    · cases h
    have hp5 := entry_settled hp4 hentry
    rcases bind_eq_error_iff.mp h5 with h | ⟨_, p6, hopen, h6⟩
    · exact .inl ((same_openFunction f label).onlyRefuses p5 e p' h)
    have hp6 := openFunction_settled hp5 hopen
    rcases bind_eq_error_iff.mp h6 with h | ⟨_, p7, hrun, h7⟩
    · exact declareLocals_error header.name locals hp6 hlocals h
    have hp7 := declareLocals_settled header.name locals hp6 hrun
    rcases bind_eq_error_iff.mp h7 with h | ⟨_, p8, hclose, hleave⟩
    · exact closeFunction_error hp7 hbody h
    · exact .inl (same_leaveScope.onlyRefuses p8 e p' hleave)
  | _ => exact hfunction.elim

theorem settled_empty : ({} : Progress).Settled := ⟨.empty, ⟨rfl, rfl⟩, rfl, rfl⟩

end Emit

/-! ### Texts -/

/-- A text that leads to an internal error is read as a tree, and a function of that tree
does not fit into a frame. -/
theorem overflows_of_compile {source : String} {e : InternalError}
    (h : (compile source).1 = .error (.internal e)) :
    ∃ lexemes tree p, Token.scan source = .ok lexemes ∧ (Decl.read lexemes).1 = .ok tree ∧
      program (some tree) {} = .error (.internal e) p ∧ p.Overflows (.internal e) := by
  obtain ⟨_, he⟩ | ⟨_, he⟩ | ⟨lexemes, tree, hscan, hread, heq⟩ := compile_cases source
  · cases h.symm.trans he
  · cases h.symm.trans he
  obtain ⟨hfunction, hproper⟩ := Decl.isProper_of_read hread
  rw [heq, compileTree] at h
  cases hrun : program (some tree) {} with
  | ok u p => rw [hrun] at h; cases h
  | error err p =>
    rw [hrun] at h
    cases h
    obtain ⟨cause, hcause⟩ | hoverflows := program_error settled_empty hfunction hproper hrun
    · cases hcause
    · exact ⟨lexemes, tree, p, hscan, hread, hrun, hoverflows⟩

/-- The only internal error that a text leads to is that of a function whose variables and
temporaries do not fit into a frame. -/
theorem internal_error_of_compile (source : String) (e : InternalError)
    (h : (compile source).1 = .error (.internal e)) :
    ∃ lexemes tree p label, Token.scan source = .ok lexemes ∧
      (Decl.read lexemes).1 = .ok tree ∧
      Emit.program (some tree) {} = .error (.internal e) p ∧ e = .frameTooLarge label ∧
      Frame.layout? (p.env.locals p.env.scope) (Emit.newTemps p) = none := by
  obtain ⟨lexemes, tree, p, hscan, hread, hrun, label, hlabel, hlayout, -⟩ :=
    overflows_of_compile h
  cases hlabel
  exact ⟨lexemes, tree, p, label, hscan, hread, hrun, rfl, hlayout⟩

/-- A function whose variables fit into a frame as long as no temporary stands beside
them. -/
def fullFrame : String :=
  "function main(): nothing; var a: char[2147483643]; begin a[0] := 'x'; end"

theorem internal_error_of_compile_fullFrame :
    (compile fullFrame).1 = .error (.internal (.frameTooLarge ⟨"main", some 0, 0⟩)) ∧
      ∃ lexemes tree p label, Token.scan fullFrame = .ok lexemes ∧
        (Decl.read lexemes).1 = .ok tree ∧
        Emit.program (some tree) {} =
          .error (.internal (.frameTooLarge ⟨"main", some 0, 0⟩)) p ∧
        InternalError.frameTooLarge ⟨"main", some 0, 0⟩ = .frameTooLarge label ∧
        Frame.layout? (p.env.locals p.env.scope) (Emit.newTemps p) = none := by
  have h : (compile fullFrame).1 =
      .error (.internal (.frameTooLarge ⟨"main", some 0, 0⟩)) := by decide +kernel
  exact ⟨h, internal_error_of_compile fullFrame _ h⟩

end BlockLang
