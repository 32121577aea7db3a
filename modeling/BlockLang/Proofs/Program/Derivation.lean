import BlockLang.Proofs.InternalError

/-!
# The functions of a program

When a program is accepted, each of its functions was introduced, its scope was opened, its local
declarations were made, its body was translated and lowered, and its scope was left. A derivation
keeps a record of every function, inner functions in front of the function around them. A
definition is found by its path: its position among the local declarations of the function around
it, after the path of that function.
-/

namespace BlockLang

open Emit Environment List

/-- A function of a program with the states that its translation went through. -/
structure CompiledFunction where
  path : List Nat
  header : Header
  locals : List Decl
  body : List Stmt
  function : FunctionDecl
  label : FunctionLabel
  /-- Progress when the local declarations have been made. -/
  opened : Progress
  /-- Progress when the body has been translated, and the jumps to the end. -/
  translated : Progress
  pending : List Nat
  frame : Frame
  /-- The assembly when the function has been lowered. -/
  lowered : Assembly

namespace CompiledFunction

variable (r : CompiledFunction)

/-- Progress when the last quad is there. -/
def closed : Progress := r.translated.closed r.pending r.label

/-- The function as it was lowered. -/
def site : FunctionSite := ⟨r.closed.code, r.opened.env, r.label, r.frame⟩

def first : Nat := r.opened.code.next

def last : Nat := r.translated.code.next

/-- The definition in the tree. -/
def definition : Decl := .function r.header r.locals r.body

/-- The body was translated and lowered, and the scope was left with progress `p`. -/
structure Closes (p : Progress) : Prop where
  header : r.header.signature true = .ok r.function
  statements : statements r.function.name r.function.result [] r.body
    (r.opened.appended (.start r.label)) = .ok r.pending r.translated
  result : r.function.result = .nothing ∨ Stmt.someReturnsValue r.body
  layout : Frame.layout? (r.opened.env.locals r.opened.env.scope) (newTemps r.closed) =
    some r.frame
  body : Lower.body r.site r.opened.assembly = .ok () r.lowered
  leave : r.opened.env.leave = .ok p.env
  code : p.code = r.closed.code
  assembly : p.assembly = r.lowered
  functions : p.functions = r.opened.functions

end CompiledFunction

/-- The derivation of local declarations from the position `k` on in the function with
path `path`. -/
inductive Declares :
    (path : List Nat) → (k : Nat) → List Decl → Progress → Progress → List CompiledFunction → Prop
  | nil {path : List Nat} {k : Nat} {p : Progress} : Declares path k [] p p []
  | vars {path : List Nat} {k : Nat} {owner : String} {names : List DeclaredName} {ty : Ty}
      {extents : List Nat} {ds : List Decl} {p p1 p' : Progress} {rs : List CompiledFunction}
      (hvars : names.forM (declareVariable owner ty extents) p = .ok () p1)
      (rest : Declares path (k + 1) ds p1 p' rs) :
      Declares path k (.vars names ty extents :: ds) p p' rs
  | forward {path : List Nat} {k : Nat} {header : Header} {f : FunctionDecl}
      {label : FunctionLabel} {ds : List Decl} {p p1 p' : Progress} {rs : List CompiledFunction}
      (hheader : header.signature false = .ok f)
      (hintroduce : introduce f p = .ok label p1)
      (rest : Declares path (k + 1) ds p1 p' rs) :
      Declares path k (.forward header :: ds) p p' rs
  | function {path : List Nat} {k : Nat} {r : CompiledFunction} {ds : List Decl}
      {p p1 p2 p3 p' : Progress} {rs rs' : List CompiledFunction}
      (hpath : r.path = path ++ [k])
      (hintroduce : introduce r.function p = .ok r.label p1)
      (hopen : openFunction r.function r.label p1 = .ok () p2)
      (inner : Declares r.path 0 r.locals p2 r.opened rs) (hcloses : r.Closes p3)
      (rest : Declares path (k + 1) ds p3 p' rs') :
      Declares path k (r.definition :: ds) p p' (rs ++ r :: rs')

/-- The derivation of a program. Its own function is the last one. -/
inductive Compiles : Decl → Progress → List CompiledFunction → Prop
  | intro {r : CompiledFunction} {p p1 p2 p3 p4 p5 p' : Progress} {rs : List CompiledFunction}
      (hpath : r.path = []) (hparameters : r.function.parameters = [])
      (hresult : r.function.result = .nothing)
      (hstandard : (FunctionDecl.standard.forM fun g => declare (.fn g)) {} = .ok () p1)
      (henter : enterScope p1 = .ok () p2)
      (hintroduce : introduce r.function p2 = .ok r.label p3)
      (hentry : lower (Lower.entry r.label) p3 = .ok () p4)
      (hopen : openFunction r.function r.label p4 = .ok () p5)
      (inner : Declares [] 0 r.locals p5 r.opened rs) (hcloses : r.Closes p)
      (hleave : leaveScope p = .ok () p') :
      Compiles r.definition p' (rs ++ [r])

/-! ### Derivations of what is accepted -/

namespace Emit

variable {p p' : Progress}

/-- A function that has been closed leaves a record. -/
theorem closeFunction_closes {header : Header} {body : List Stmt} {f : FunctionDecl}
    {label : FunctionLabel} (path : List Nat) (locals : List Decl)
    (hheader : header.signature true = .ok f) (h : closeFunction f label body p = .ok () p') :
    ∃ r : CompiledFunction, r.path = path ∧ r.definition = .function header locals body ∧
      r.locals = locals ∧ r.function = f ∧ r.label = label ∧ r.opened = p ∧ r.Closes p' := by
  obtain ⟨pending, p1, p2, p3, hbody, hresult, hlower, hdivide, hleave⟩ := closeFunction_ok h
  obtain ⟨frame, a, hframe, hrun, hp2⟩ := lowerFunction_ok hlower
  obtain ⟨henv, hassembly⟩ := closed_eq pending label hbody
  have hfunctions : p1.functions = p.functions := by
    rw [(statements_emits f.name f.result body (Nat.zero_le _) (.refl 0 _) hbody).outside]
    rfl
  rw [henv] at hframe hrun
  rw [hassembly] at hrun
  obtain ⟨env, hleft, hp'⟩ := leaveScope_ok hleave
  rw [divideFunction_ok hdivide, hp2] at hleft hp'
  refine ⟨⟨path, header, locals, body, f, label, p, p1, pending, frame, a⟩, rfl, rfl, rfl, rfl, rfl,
    rfl, hheader, hbody, hresult, hframe, hrun, ?_, ?_, ?_, ?_⟩
  · rw [hp']
    exact henv ▸ hleft
  · rw [hp']
    rfl
  · rw [hp']
  · rw [hp']
    exact hfunctions

mutual

theorem declareLocal_declares (owner : String) : ∀ (d : Decl) {path : List Nat} {k : Nat}
    {ds : List Decl} {p p1 p' : Progress} {rs : List CompiledFunction},
    declareLocal owner d p = .ok () p1 → Declares path (k + 1) ds p1 p' rs →
      ∃ rs', Declares path k (d :: ds) p p' rs'
  | .vars names ty extents, path, k, ds, p, p1, p', rs, h, rest => by
    rw [declareLocal] at h
    exact ⟨rs, .vars h rest⟩
  | .forward header, path, k, ds, p, p1, p', rs, h, rest => by
    obtain ⟨f, label, hf, hlabel⟩ := declareLocal_forward_ok h
    exact ⟨rs, .forward hf hlabel rest⟩
  | .function header locals body, path, k, ds, p, p1, p', rs, h, rest => by
    obtain ⟨f, label, q1, q2, q3, hf, hlabel, hopen, hlocals, hclose⟩ :=
      declareLocal_function_ok h
    obtain ⟨r, hpath, hdefinition, rfl, rfl, rfl, rfl, hcloses⟩ :=
      closeFunction_closes (path ++ [k]) locals hf hclose
    obtain ⟨inner, hinner⟩ := declareLocals_declares header.name r.locals r.path 0 hlocals
    exact ⟨inner ++ r :: rs, hdefinition ▸ .function hpath hlabel hopen hinner hcloses rest⟩
  | .missing n, _, _, _, _, _, _, _, h, _ => by cases h

theorem declareLocals_declares (owner : String) : ∀ (ds : List Decl) (path : List Nat) (k : Nat)
    {p p' : Progress}, declareLocals owner ds p = .ok () p' → ∃ rs, Declares path k ds p p' rs
  | [], path, k, p, p', h => by
    rw [declareLocals] at h
    cases h
    exact ⟨[], .nil⟩
  | d :: ds, path, k, p, p', h => by
    obtain ⟨p1, hd, hds⟩ := declareLocals_cons_ok h
    obtain ⟨rs, hrest⟩ := declareLocals_declares owner ds path (k + 1) hds
    exact declareLocal_declares owner d hd hrest

end

/-- A program that is accepted has a derivation. -/
theorem program_compiles {tree : Decl} (h : program (some tree) {} = .ok () p) :
    ∃ rs, Compiles tree p rs := by
  obtain ⟨header, locals, body, f, label, p1, p2, p3, p4, p5, p6, p7, htree, hf, hparameters,
    hresult, hstandard, henter, hlabel, hentry, hopen, hlocals, hclose, hleave⟩ := program_ok h
  obtain ⟨r, hpath, hdefinition, rfl, rfl, rfl, rfl, hcloses⟩ :=
    closeFunction_closes [] locals hf hclose
  obtain ⟨rs, hinner⟩ := declareLocals_declares header.name r.locals [] 0 hlocals
  obtain rfl : tree = r.definition := hdefinition ▸ Option.some.inj htree
  exact ⟨rs ++ [r], .intro hpath hparameters hresult hstandard henter hlabel hentry hopen hinner
    hcloses hleave⟩

end Emit

/-! ### Settled states -/

namespace CompiledFunction

variable {r : CompiledFunction} {p : Progress}

theorem Closes.closed_assembly (h : r.Closes p) : r.closed.assembly = r.opened.assembly :=
  (closed_eq r.pending r.label h.statements).2

/-- The frame of a function has places for its variables and temporaries. -/
theorem Closes.site_sound (h : r.Closes p) (hopened : r.opened.Settled) :
    r.site.Sound r.opened.code.temps.size :=
  Emit.site_sound hopened h.closed_assembly h.layout

/-- A function that is closed in a settled state leaves one. -/
theorem Closes.settled (h : r.Closes p) (hopened : r.opened.Settled) : p.Settled := by
  obtain ⟨a, hrun, hidle, hquads, htemps⟩ := lowerBody_run hopened h.statements h.layout
  obtain rfl : r.lowered = a := by
    have hbody := h.body
    rw [site, closed, hrun] at hbody
    cases hbody
    rfl
  exact ⟨hopened.env.leave h.leave, h.assembly ▸ hidle, by rw [h.assembly, h.code]; exact hquads,
    by rw [h.assembly, h.code]; exact htemps⟩

/-- When a function is closed the names are those with which it was introduced. -/
theorem Closes.env_eq {p1 p2 : Progress} (h : r.Closes p) (hp1 : p1.Settled)
    (hopen : openFunction r.function r.label p1 = .ok () p2)
    (hopened : ∃ added, r.opened.env = p2.env.declared added) : p.env = p1.env := by
  obtain ⟨added, hadded⟩ := hopened
  have hleave := h.leave
  rw [hadded, (openFunction_redeclares hopen).env_eq, ← declared_append] at hleave
  exact hp1.env.ordered.eq_of_leave_declared hleave

end CompiledFunction

namespace Declares

variable {path : List Nat} {k : Nat} {ds : List Decl} {p p' : Progress}
  {rs : List CompiledFunction}

/-- Local declarations that start in a settled state end in one, and every function among
them is closed in one. -/
theorem settled (h : Declares path k ds p p' rs) (hp : p.Settled) :
    p'.Settled ∧ ∀ r ∈ rs, r.opened.Settled := by
  induction h with
  | nil => exact ⟨hp, forall_mem_nil _⟩
  | vars hvars _ ih => exact ih (declareVariables_settled hp hvars)
  | forward hheader hintroduce _ ih =>
    exact ih (introduce_settled hp hheader hintroduce)
  | function hpath hintroduce hopen _ hcloses _ ihinner ihrest =>
    have hp1 := introduce_settled hp hcloses.header hintroduce
    obtain ⟨hopened, hinner⟩ := ihinner (openFunction_settled hp1 hopen)
    obtain ⟨hp', hrest⟩ := ihrest (hcloses.settled hopened)
    refine ⟨hp', forall_mem_append.mpr ⟨hinner, forall_mem_cons.mpr ⟨hopened, hrest⟩⟩⟩

/-- Every function among local declarations has been closed. -/
theorem closes (h : Declares path k ds p p' rs) : ∀ r ∈ rs, ∃ p, r.Closes p := by
  induction h with
  | nil => exact forall_mem_nil _
  | vars _ _ ih => exact ih
  | forward _ _ _ ih => exact ih
  | function _ _ _ _ hcloses _ ihinner ihrest =>
    exact forall_mem_append.mpr ⟨ihinner, forall_mem_cons.mpr ⟨⟨_, hcloses⟩, ihrest⟩⟩

/-- Local declarations add to the innermost scope. -/
theorem env_eq (h : Declares path k ds p p' rs) (hp : p.Settled) :
    ∃ added, p'.env = p.env.declared added := by
  induction h with
  | nil => exact ⟨[], rfl⟩
  | vars hvars _ ih =>
    obtain ⟨added, hadded⟩ := ih (declareVariables_settled hp hvars)
    rw [(declareVariables_ok hvars).env_eq, ← declared_append] at hadded
    exact ⟨_, hadded⟩
  | forward hheader hintroduce _ ih =>
    obtain ⟨serial, functions, hdeclare, -⟩ := introduce_cases hintroduce
    obtain ⟨added, hadded⟩ := ih
      (introduce_settled hp hheader hintroduce)
    rw [eq_declared hdeclare, ← declared_append] at hadded
    exact ⟨_, hadded⟩
  | function hpath hintroduce hopen inner hcloses _ ihinner ihrest =>
    obtain ⟨serial, functions, hdeclare, -⟩ := introduce_cases hintroduce
    have hp1 := introduce_settled hp hcloses.header hintroduce
    have hp2 := openFunction_settled hp1 hopen
    -- what the function declares inside is gone when it is closed
    have henv := hcloses.env_eq hp1 hopen (ihinner hp2)
    obtain ⟨added, hadded⟩ := ihrest (hcloses.settled (inner.settled hp2).1)
    rw [henv, eq_declared hdeclare, ← declared_append] at hadded
    exact ⟨_, hadded⟩

/-- The states around a function among local declarations: when it has been introduced,
when its scope has been entered, and when it has been closed. -/
structure Around (r : CompiledFunction) (p1 p2 p3 : Progress) : Prop where
  introduced : p1.Settled
  entered : p2.Settled
  redeclares : p1.Redeclares p2 (p1.env.enter.declared (r.function.parameters.map .param))
  opened : r.opened.Settled
  opened_env : ∃ added, r.opened.env = p2.env.declared added
  closed : p3.Settled
  env_eq : p3.env = p1.env

theorem around {r : CompiledFunction} {p1 p2 p3 : Progress} (hp : p.Settled)
    (hintroduce : introduce r.function p = .ok r.label p1)
    (hopen : openFunction r.function r.label p1 = .ok () p2)
    (inner : Declares r.path 0 r.locals p2 r.opened rs) (hcloses : r.Closes p3) :
    Around r p1 p2 p3 := by
  have hp1 := introduce_settled hp hcloses.header hintroduce
  have hp2 := openFunction_settled hp1 hopen
  have hopened := (inner.settled hp2).1
  exact ⟨hp1, hp2, openFunction_redeclares hopen, hopened, inner.env_eq hp2,
    hcloses.settled hopened, hcloses.env_eq hp1 hopen (inner.env_eq hp2)⟩

end Declares

/-! ### Programs -/

namespace Environment

/-- The names of the standard routines. -/
def standard : Environment := ({} : Environment).declared (FunctionDecl.standard.map .fn)

/-- The names in which the locals of a program are declared. -/
def ofProgram (f : FunctionDecl) : Environment := (standard.enter.declared [.fn f]).enter

end Environment

/-- The assembly in front of the functions: the start of the program. -/
def Assembly.start (program : FunctionLabel) : Assembly where
  lines := #[.directive ".intel_syntax noprefix", .directive ".text", .directive ".global main",
    .label "main", .push (.register .ebp), .mov (.register .ebp) (.register .esp),
    .push (.register .ebx), .push (.register .esi), .push (.register .edi), .push (.register .ebp),
    .call program.text, .add .esp (.immediate Frame.word), .pop .edi, .pop .esi, .pop .ebx,
    .xor .eax .eax, .pop .ebp, .ret]

theorem Lower.entry_run (program : FunctionLabel) :
    Lower.entry program {} = .ok () (.start program) := rfl

/-- The function of a program with progress when its scope has been opened, when it has
been closed, and in the end. -/
structure Outermost (r : CompiledFunction) (p1 p2 p : Progress) : Prop where
  path : r.path = []
  parameters : r.function.parameters = []
  result : r.function.result = .nothing
  serial : r.function.serial = 0
  label : r.label = ⟨r.function.name, some 0, 0⟩
  settled : p1.Settled
  env : p1.env = .ofProgram r.function
  functions : p1.functions = [(r.function.name, 0)]
  code : p1.code = {}
  assembly : p1.assembly = .start r.label
  closes : r.Closes p2
  opened : r.opened.Settled
  final : p2.Redeclares p .standard

/-- The steps around the function of a program. -/
theorem Compiles.outermost {tree : Decl} {p : Progress} {rs : List CompiledFunction}
    (h : Compiles tree p rs) :
    ∃ r p1 p2 inner, tree = r.definition ∧ rs = inner ++ [r] ∧
      Declares [] 0 r.locals p1 r.opened inner ∧ Outermost r p1 p2 p := by
  obtain @⟨r, p, p1, p2, p3, p4, p5, p', rs, hpath, hparameters, hresult, hstandard, henter,
    hintroduce, hentry, hopen, hinner, hcloses, hleave⟩ := h
  have hp1 := forM_declare_ok hstandard
  have hp2 := hp1.trans (enterScope_ok henter)
  have henv2 : p2.env = standard.enter := by
    rw [hp2.env_eq, hp1.env_eq]
    rfl
  have hsettled2 := enterScope_settled (standard_settled settled_empty hstandard)
    henter
  have hsettled3 := introduce_settled hsettled2 hcloses.header hintroduce
  have hsettled4 := entry_settled hsettled3 hentry
  have hsettled5 := openFunction_settled hsettled4 hopen
  have hopened := (hinner.settled hsettled5).1
  obtain ⟨serial, functions, hdeclare, hlabel, hp3, hcases⟩ := introduce_cases hintroduce
  rw [henv2] at hdeclare hlabel hcases
  -- the program is the first function that is counted
  obtain ⟨rfl, rfl⟩ : serial = 0 ∧ functions = [(r.function.name, 0)] := by
    obtain ⟨forward, hfind, -⟩ | ⟨-, hserial, hfunctions⟩ := hcases
    · have hstandard : ∀ b ∈ standard.bindings, b.scope = -1 := by decide
      cases hstandard _ (mem_of_find?_eq_some hfind)
    · rw [hp2] at hserial hfunctions
      exact ⟨hserial, hfunctions⟩
  obtain ⟨-, -, -, -, hserial⟩ := eq_of_signature hcloses.header
  have hfunction : { r.function with serial := 0 } = r.function := by rw [← hserial]
  rw [hfunction] at hdeclare
  have henv3 := eq_declared hdeclare
  obtain ⟨a, ha, hp4⟩ := lower_ok hentry
  have hp5 := openFunction_redeclares hopen
  have henv5 : p5.env = .ofProgram r.function := by
    rw [hp5.env_eq, hparameters, hp4, henv3]
    rfl
  have henv : p.env = p3.env := by
    rw [hcloses.env_eq hsettled4 hopen (hinner.env_eq hsettled5), hp4]
  obtain ⟨env, hleft, hp'⟩ := leaveScope_ok hleave
  have hordered : standard.Ordered := ⟨by decide, by decide⟩
  obtain rfl : env = .standard := hordered.eq_of_leave_declared (henv3 ▸ henv ▸ hleft)
  have hassembly : p5.assembly = .start r.label := by
    rw [hp3, hp2] at ha
    cases (Lower.entry_run r.label).symm.trans ha
    rw [hp5, hp4]
  refine ⟨r, p5, p, rs, rfl, rfl, hinner, ?_⟩
  exact {
    path := hpath
    parameters := hparameters
    result := hresult
    serial := hserial
    label := hlabel
    settled := hsettled5
    env := henv5
    functions := by rw [hp5, hp4, hp3]
    code := by rw [hp5, hp4, hp3, hp2]
    assembly := hassembly
    closes := hcloses
    opened := hopened
    final := hp' }

/-- Every function of a program is closed in a settled state. -/
theorem Compiles.settled {tree : Decl} {p : Progress} {rs : List CompiledFunction}
    (h : Compiles tree p rs) : ∀ r ∈ rs, r.opened.Settled := by
  obtain ⟨r, p1, p2, inner, -, rfl, hinner, houter⟩ := h.outermost
  exact forall_mem_append.mpr
    ⟨(hinner.settled houter.settled).2, forall_mem_singleton.mpr houter.opened⟩

/-- Every function of a program has been closed. -/
theorem Compiles.closes {tree : Decl} {p : Progress} {rs : List CompiledFunction}
    (h : Compiles tree p rs) : ∀ r ∈ rs, ∃ p, r.Closes p := by
  obtain ⟨r, p1, p2, inner, -, rfl, hinner, houter⟩ := h.outermost
  exact forall_mem_append.mpr
    ⟨hinner.closes, forall_mem_singleton.mpr ⟨_, houter.closes⟩⟩

end BlockLang
