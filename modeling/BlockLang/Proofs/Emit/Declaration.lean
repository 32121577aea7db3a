import BlockLang.Proofs.Code.Complete
import BlockLang.Proofs.Emit.Step
import BlockLang.Proofs.Environment

/-!
# Steps of declarations

Declarations change the environment; only the body of a function changes the
code. Here the steps of a declaration get the statements that say what they do
when they succeed, down to the state in which a function is lowered.
-/

namespace BlockLang

open Environment BlockLang.Frame Lower ParameterGroup

variable {isDefined : Bool} {d : Declaration} {env : Environment} {f : FunctionDecl}
  {label : FunctionLabel} {header : Header} {xs : List DeclaredName} {extents : List Nat}
  {body : List Stmt} {n : Nat} {p p1 p2 : Progress} {function owner x : String} {ty : Ty} {α : Type}

namespace Progress

/-- Progress with another environment, up to notes. -/
def Redeclares (p p' : Progress) (env : Environment) : Prop :=
  p' = { p with env, events := p'.events }

theorem Redeclares.env_eq {p' : Progress} (h : p.Redeclares p' env) :
    p'.env = env := congrArg Progress.env h

theorem Redeclares.trans {env' : Environment} (h : p.Redeclares p1 env)
    (h' : p1.Redeclares p2 env') : p.Redeclares p2 env' := by
  rw [Redeclares, h', h]

/-- Progress when the pending jumps of a body have been led to the end of its
function and the end has been appended. -/
def closed (p : Progress) (pending : List Nat) (label : FunctionLabel) : Progress :=
  (p.withCode (p.code.patch pending p.code.next)).appended (.finish label)

end Progress

namespace Emit

variable {p p' : Progress}

/-! ### The environment -/

theorem declare_ok (h : declare d p = .ok () p') :
    ∃ env, p.env.declare d = .ok env ∧ p.Redeclares p' env := by
  unfold declare at h
  rw [bind_of_ok get_run] at h
  cases hd : p.env.declare d with
  | ok env => rw [hd] at h; cases h; exact ⟨env, rfl, rfl⟩
  | error e => rw [hd] at h; cases h

theorem enterScope_ok (h : enterScope p = .ok () p') : p.Redeclares p' p.env.enter := by
  cases h
  rfl

theorem leaveScope_ok (h : leaveScope p = .ok () p') :
    ∃ env, p.env.leave = .ok env ∧ p.Redeclares p' env := by
  unfold leaveScope at h
  rw [bind_of_ok get_run] at h
  cases hd : p.env.leave with
  | ok env => rw [hd] at h; cases h; exact ⟨env, rfl, rfl⟩
  | error e => rw [hd] at h; cases h

theorem signature_ok (h : signature header isDefined p = .ok f p') :
    p' = p ∧ header.signature isDefined = .ok f := by
  unfold signature at h
  cases hf : header.signature isDefined with
  | ok g => rw [hf] at h; cases h; exact ⟨rfl, rfl⟩
  | error e => rw [hf] at h; cases h

theorem signature_run (h : header.signature isDefined = .ok f) :
    signature header isDefined p = .ok f p := by
  rw [signature, h]
  rfl

theorem exists_groups (h : header.signature isDefined = .ok f) :
    ∃ groups, header.groups.mapM parameters = .ok groups ∧
      f = ⟨header.name, header.location, header.result, groups.flatten, isDefined, 0⟩ := by
  unfold Header.signature at h
  cases hgroups : header.groups.mapM parameters with
  | error e => rw [hgroups] at h; cases h
  | ok groups =>
    rw [hgroups] at h
    cases h
    exact ⟨groups, rfl, rfl⟩

/-- What a header declares has its name, its location and its result, and is not counted
yet. -/
theorem eq_of_signature (h : header.signature isDefined = .ok f) :
    f.name = header.name ∧ f.location = header.location ∧ f.result = header.result ∧
      f.isDefined = isDefined ∧ f.serial = 0 := by
  obtain ⟨groups, -, rfl⟩ := exists_groups h
  exact ⟨rfl, rfl, rfl, rfl, rfl⟩

/-- A function takes the serial number of the forward declaration that it fulfils, and
otherwise it is counted. -/
theorem serialOf_cases (h : serialOf x p = .ok n p') :
    (∃ forward, p.env.find? x = some ⟨.fn forward, p.env.scope⟩ ∧ forward.isDefined = false ∧
      n = forward.serial ∧ p' = p) ∨
    ((∀ f, p.env.find? x = some ⟨.fn f, p.env.scope⟩ → f.isDefined = true) ∧
      n = p.functions.count (x, p.env.scope) ∧
      p' = { p with functions := (x, p.env.scope) :: p.functions }) := by
  unfold serialOf at h
  rw [bind_of_ok get_run] at h
  cases hfind : p.env.find? x with
  | none =>
    simp only [hfind] at h
    cases h
    exact .inr ⟨nofun, rfl, rfl⟩
  | some b =>
    obtain ⟨d, s⟩ := b
    cases d with
    | fn forward =>
      simp only [hfind] at h
      split at h
      · rename_i hforward
        cases h
        exact .inl ⟨forward, by rw [hforward.1], hforward.2, rfl, rfl⟩
      · rename_i hforward
        cases h
        refine .inr ⟨fun f hf => ?_, rfl, rfl⟩
        cases hf
        simpa using hforward
    | _ =>
      simp only [hfind] at h
      cases h
      exact .inr ⟨nofun, rfl, rfl⟩

/-- Finding the serial number of a function may count it. -/
theorem serialOf_ok (h : serialOf x p = .ok n p') : p' = { p with functions := p'.functions } := by
  obtain ⟨_, -, -, -, rfl⟩ | ⟨-, -, rfl⟩ := serialOf_cases h
  · rfl
  · rfl

/-- A function is declared with its serial number, and the label says where. -/
theorem introduce_cases (h : introduce f p = .ok label p') :
    ∃ serial functions, p.env.declare (.fn { f with serial }) = .ok p'.env ∧
      label = ⟨f.name, some p.env.scope, serial⟩ ∧
      p' = { p with env := p'.env, functions, events := p'.events } ∧
      ((∃ forward, p.env.find? f.name = some ⟨.fn forward, p.env.scope⟩ ∧
          forward.isDefined = false ∧ serial = forward.serial ∧ functions = p.functions) ∨
        ((∀ g, p.env.find? f.name = some ⟨.fn g, p.env.scope⟩ → g.isDefined = true) ∧
          serial = p.functions.count (f.name, p.env.scope) ∧
          functions = (f.name, p.env.scope) :: p.functions)) := by
  unfold introduce at h
  obtain ⟨serial, p1, hserial, h1⟩ := bind_eq_ok_iff.mp h
  rw [bind_of_ok get_run] at h1
  obtain ⟨_, p2, hdecl, h2⟩ := bind_eq_ok_iff.mp h1
  cases h2
  obtain ⟨env, henv, hp2⟩ := declare_ok hdecl
  have hp1 := serialOf_ok hserial
  rw [hp1] at henv
  refine ⟨serial, p1.functions, ?_, by rw [hp1], ?_, ?_⟩
  · rw [hp2.env_eq]
    exact henv
  · rw [hp2, hp1]
  · obtain ⟨forward, hfind, hforward, rfl, rfl⟩ | ⟨hnone, rfl, rfl⟩ := serialOf_cases hserial
    · exact .inl ⟨forward, hfind, hforward, rfl, rfl⟩
    · exact .inr ⟨hnone, rfl, rfl⟩

theorem introduce_ok (h : introduce f p = .ok label p') :
    ∃ serial env functions, p.env.declare (.fn { f with serial }) = .ok env ∧
      label = ⟨f.name, some p.env.scope, serial⟩ ∧
      p' = { p with env, functions, events := p'.events } := by
  obtain ⟨serial, functions, henv, hlabel, hp', -⟩ := introduce_cases h
  exact ⟨serial, p'.env, functions, henv, hlabel, hp'⟩

theorem declareVariable_ok {x : DeclaredName}
    (h : declareVariable function ty extents x p = .ok () p') :
    ∃ env, p.env.declare (.var ⟨x.text, x.location, ty, extents⟩) = .ok env ∧
      p.Redeclares p' env ∧ (layout? (env.locals env.scope) []).isSome := by
  unfold declareVariable at h
  obtain ⟨_, p1, hdecl, h1⟩ := bind_eq_ok_iff.mp h
  obtain ⟨env, henv, hp1⟩ := declare_ok hdecl
  rw [bind_of_ok get_run] at h1
  split at h1
  · cases h1
  · rename_i hsome
    cases h1
    refine ⟨env, henv, hp1, ?_⟩
    rw [hp1] at hsome
    simpa [Option.isNone_iff_eq_none, Option.isSome_iff_ne_none] using hsome

/-- What every step of a loop preserves, the loop preserves. -/
theorem forM_preserves {α : Type} {f : α → Emit Unit} {I : Progress → Prop} :
    ∀ {xs : List α} {p p' : Progress},
      (∀ x ∈ xs, ∀ q q', f x q = .ok () q' → I q → I q') → xs.forM f p = .ok () p' → I p → I p'
  | [], p, p', _, h, hp => by
    cases h
    exact hp
  | x :: xs, p, p', hf, h, hp => by
    obtain ⟨_, p1, hx, hxs⟩ := bind_eq_ok_iff.mp h
    have hp1 := hf x List.mem_cons_self p p1 hx hp
    exact forM_preserves (fun y hy => hf y (List.mem_cons_of_mem _ hy)) hxs hp1

/-- A loop of declarations declares one after the other. -/
theorem forM_redeclares {α : Type} {f : α → Emit Unit} {d : α → Declaration}
    (hf : ∀ x q q', f x q = .ok () q' → q.Redeclares q' (q.env.declared [d x])) :
    ∀ {xs : List α} {p p' : Progress}, xs.forM f p = .ok () p' →
      p.Redeclares p' (p.env.declared (xs.map d))
  | [], p, p', h => by
    cases h
    rfl
  | x :: xs, p, p', h => by
    obtain ⟨_, p1, hx, hxs⟩ := bind_eq_ok_iff.mp h
    have hp1 := hf x p p1 hx
    have hp' := forM_redeclares hf hxs
    rw [hp1.env_eq, ← declared_append] at hp'
    exact hp1.trans hp'

theorem forM_declare_ok {d : α → Declaration} {xs : List α}
    (h : (xs.forM fun x => declare (d x)) p = .ok () p') :
    p.Redeclares p' (p.env.declared (xs.map d)) := by
  refine forM_redeclares (fun x q q' hq => ?_) h
  obtain ⟨env, henv, hq'⟩ := declare_ok hq
  rwa [eq_declared henv] at hq'

theorem declareVariables_ok (h : xs.forM (declareVariable function ty extents) p = .ok () p') :
    p.Redeclares p'
      (p.env.declared (xs.map fun x => .var ⟨x.text, x.location, ty, extents⟩)) := by
  refine forM_redeclares (fun x q q' hq => ?_) h
  obtain ⟨env, henv, hq', -⟩ := declareVariable_ok hq
  rwa [eq_declared henv] at hq'

/-! ### Completed functions -/

theorem lower_ok {step : Lower α} {a : α} (h : lower step p = .ok a p') :
    ∃ assembly, step p.assembly = .ok a assembly ∧ p' = { p with assembly } := by
  unfold lower at h
  cases hs : step p.assembly with
  | ok b assembly => rw [hs] at h; cases h; exact ⟨assembly, rfl, rfl⟩
  | error e assembly => rw [hs] at h; cases h

/-- The temporaries of the function that is lowered next, with their types. -/
def newTemps (p : Progress) : List (Nat × Ty) :=
  ((p.code.temps.toList.drop p.assembly.tempsDone).zipIdx p.assembly.tempsDone).map
    fun (ty, n) => (n, ty)

theorem site_run (label : FunctionLabel) :
    site p.code p.env label p.assembly =
      match layout? (p.env.locals p.env.scope) (newTemps p) with
      | some frame => .ok ⟨p.code, p.env, label, frame⟩ p.assembly
      | none => .error (.frameTooLarge label) p.assembly := by
  unfold site
  rw [bind_of_ok get_run]
  change (match layout? (p.env.locals p.env.scope) (newTemps p) with
    | some frame => pure _
    | none => throw _ : Lower FunctionSite) p.assembly = _
  cases layout? (p.env.locals p.env.scope) (newTemps p) <;> rfl

theorem lowerFunction_ok (h : lowerFunction label p = .ok () p') :
    ∃ frame assembly,
      layout? (p.env.locals p.env.scope) (newTemps p) = some frame ∧
      Lower.body ⟨p.code, p.env, label, frame⟩ p.assembly = .ok () assembly ∧
      p' = { p with assembly, events := p'.events } := by
  unfold lowerFunction at h
  rw [bind_of_ok get_run] at h
  obtain ⟨site, p1, hp1, h1⟩ := bind_eq_ok_iff.mp h
  obtain ⟨a1, hsite, rfl⟩ := lower_ok hp1
  rw [site_run] at hsite
  cases hframe : layout? (p.env.locals p.env.scope) (newTemps p) with
  | none => rw [hframe] at hsite; cases hsite
  | some frame =>
    rw [hframe] at hsite
    cases hsite
    obtain ⟨_, p2, hnote, h2⟩ := bind_eq_ok_iff.mp h1
    cases hnote
    obtain ⟨assembly, hbody, rfl⟩ := lower_ok h2
    exact ⟨frame, assembly, rfl, hbody, rfl⟩

theorem divideFunction_ok (h : divideFunction label p = .ok () p') :
    p' = { p with
      blocks := p.blocks ++ [(label, p.code.blocksFrom p.blocksDone)]
      blocksDone := p.code.next
      events := p'.events } := by
  cases h
  rfl

theorem openFunction_ok (h : openFunction f label p = .ok () p') :
    ∃ p1, p.Redeclares p1 p.env.enter ∧
      (f.parameters.forM fun q => declare (.param q)) p1 = .ok () p' := by
  unfold openFunction at h
  obtain ⟨_, p1, hnote, h1⟩ := bind_eq_ok_iff.mp h
  cases hnote
  obtain ⟨_, p2, henter, h2⟩ := bind_eq_ok_iff.mp h1
  cases henter
  refine ⟨_, ?_, h2⟩
  rfl

/-- Opening a function enters a scope with its parameters. -/
theorem openFunction_redeclares (h : openFunction f label p = .ok () p') :
    p.Redeclares p' (p.env.enter.declared (f.parameters.map .param)) := by
  obtain ⟨p1, hp1, hparameters⟩ := openFunction_ok h
  have hp' := forM_declare_ok hparameters
  rw [hp1.env_eq] at hp'
  exact hp1.trans hp'

theorem closeFunction_ok (h : closeFunction f label body p = .ok () p') :
    ∃ pending p1 p2 p3,
      statements f.name f.result [] body (p.appended (.start label)) =
        .ok pending p1 ∧
      (f.result = .nothing ∨ Stmt.someReturnsValue body) ∧
      lowerFunction label (p1.closed pending label) = .ok () p2 ∧
      divideFunction label p2 = .ok () p3 ∧ leaveScope p3 = .ok () p' := by
  unfold closeFunction at h
  rw [bind_of_ok (append_run _ _ _ _)] at h
  obtain ⟨pending, p1, hbody, h1⟩ := bind_eq_ok_iff.mp h
  rw [bind_of_ok (patchHere_run _), bind_of_ok (append_run _ _ _ _)] at h1
  dsimp only at h1
  -- a function with a result has to have a return with a value
  split at h1
  · cases h1
  · rename_i hresult
    obtain ⟨_, p2, hlower, h2⟩ := bind_eq_ok_iff.mp h1
    obtain ⟨_, p3, hdivide, hleave⟩ := bind_eq_ok_iff.mp h2
    refine ⟨pending, p1, p2, p3, hbody, ?_, hlower, hdivide, hleave⟩
    by_cases hr : f.result = .nothing
    · exact .inl hr
    · exact .inr (by simpa [hr] using hresult)

/-! ### Steps without code -/

theorem code_declare (h : declare d p = .ok () p') : p'.code = p.code := by
  obtain ⟨env, -, hp'⟩ := declare_ok h
  rw [hp']

theorem code_forM_declare {d : α → Declaration} {xs : List α}
    (h : (xs.forM fun x => declare (d x)) p = .ok () p') : p'.code = p.code :=
  forM_preserves (I := fun q => q.code = p.code)
    (fun _ _ _ _ hq hcode => (code_declare hq).trans hcode) h rfl

theorem code_introduce (h : introduce f p = .ok label p') : p'.code = p.code := by
  obtain ⟨_, _, _, -, -, hp'⟩ := introduce_ok h
  rw [hp']

theorem code_openFunction (h : openFunction f label p = .ok () p') : p'.code = p.code := by
  obtain ⟨p1, hp1, hparameters⟩ := openFunction_ok h
  rw [code_forM_declare hparameters, hp1]

theorem code_leaveScope (h : leaveScope p = .ok () p') : p'.code = p.code := by
  obtain ⟨_, -, hp'⟩ := leaveScope_ok h
  rw [hp']

theorem code_declareVariables (h : xs.forM (declareVariable function ty extents) p = .ok () p') :
    p'.code = p.code :=
  forM_preserves (I := fun q => q.code = p.code) (fun _ _ _ _ hq hcode => by
    obtain ⟨_, -, hq', -⟩ := declareVariable_ok hq
    rw [hq', ← hcode]) h rfl

theorem declareLocal_function_ok {locals : List Decl}
    (h : declareLocal owner (.function header locals body) p = .ok () p') :
    ∃ f label p1 p2 p3, header.signature true = .ok f ∧ introduce f p = .ok label p1 ∧
      openFunction f label p1 = .ok () p2 ∧ declareLocals header.name locals p2 = .ok () p3 ∧
      closeFunction f label body p3 = .ok () p' := by
  rw [declareLocal] at h
  obtain ⟨f, q, hq, h1⟩ := bind_eq_ok_iff.mp h
  obtain ⟨rfl, hf⟩ := signature_ok hq
  obtain ⟨label, p1, hlabel, h2⟩ := bind_eq_ok_iff.mp h1
  obtain ⟨_, p2, hopen, h3⟩ := bind_eq_ok_iff.mp h2
  obtain ⟨_, p3, hlocals, hclose⟩ := bind_eq_ok_iff.mp h3
  exact ⟨f, label, p1, p2, p3, hf, hlabel, hopen, hlocals, hclose⟩

theorem declareLocal_forward_ok (h : declareLocal owner (.forward header) p = .ok () p') :
    ∃ f label, header.signature false = .ok f ∧ introduce f p = .ok label p' := by
  rw [declareLocal] at h
  obtain ⟨f, q, hq, h1⟩ := bind_eq_ok_iff.mp h
  obtain ⟨rfl, hf⟩ := signature_ok hq
  obtain ⟨label, p1, hlabel, h2⟩ := bind_eq_ok_iff.mp h1
  cases h2
  exact ⟨f, label, hf, hlabel⟩

theorem declareLocals_cons_ok {d : Decl} {ds : List Decl}
    (h : declareLocals owner (d :: ds) p = .ok () p') :
    ∃ p1, declareLocal owner d p = .ok () p1 ∧ declareLocals owner ds p1 = .ok () p' := by
  rw [declareLocals] at h
  obtain ⟨_, p1, hd, hds⟩ := bind_eq_ok_iff.mp h
  exact ⟨p1, hd, hds⟩

theorem program_ok {tree : Option Decl} (h : program tree p = .ok () p') :
    ∃ header locals body f label p1 p2 p3 p4 p5 p6 p7,
      tree = some (.function header locals body) ∧ header.signature true = .ok f ∧
      f.parameters = [] ∧ f.result = .nothing ∧
      (FunctionDecl.standard.forM fun g => declare (.fn g)) p = .ok () p1 ∧
      enterScope p1 = .ok () p2 ∧ introduce f p2 = .ok label p3 ∧
      lower (entry label) p3 = .ok () p4 ∧ openFunction f label p4 = .ok () p5 ∧
      declareLocals header.name locals p5 = .ok () p6 ∧
      closeFunction f label body p6 = .ok () p7 ∧ leaveScope p7 = .ok () p' := by
  unfold program at h
  split at h
  · cases h
  · rename_i header locals body
    obtain ⟨f, q, hq, h1⟩ := bind_eq_ok_iff.mp h
    obtain ⟨rfl, hf⟩ := signature_ok hq
    split at h1
    · cases h1
    rename_i hheader
    obtain ⟨_, p1, hstandard, h2⟩ := bind_eq_ok_iff.mp h1
    obtain ⟨_, p2, henter, h3⟩ := bind_eq_ok_iff.mp h2
    obtain ⟨label, p3, hlabel, h4⟩ := bind_eq_ok_iff.mp h3
    obtain ⟨_, p4, hentry, h5⟩ := bind_eq_ok_iff.mp h4
    obtain ⟨_, p5, hopen, h6⟩ := bind_eq_ok_iff.mp h5
    obtain ⟨_, p6, hlocals, h7⟩ := bind_eq_ok_iff.mp h6
    obtain ⟨_, p7, hclose, hleave⟩ := bind_eq_ok_iff.mp h7
    simp only [ne_eq, not_or, Decidable.not_not] at hheader
    exact ⟨header, locals, body, f, label, p1, p2, p3, p4, p5, p6, p7, rfl, hf, hheader.1,
      hheader.2, hstandard, henter, hlabel, hentry, hopen, hlocals, hclose, hleave⟩
  · cases h

end Emit

end BlockLang
