import BlockLang.Proofs.Emit.Step
import BlockLang.Proofs.Environment.Erasure

/-!
# Steps of emission do not see locations

A step of emission is mirrored by another if, started without locations, the other gives the same
without locations. Up to the point where a function is lowered, such a step fails only by refusing
the program.
-/

namespace BlockLang

open CompileError EStateM.Result List Lower SemanticError

/-- Where variables stand does not matter for the layout of a frame. -/
theorem Frame.layout?_erase (vs : List Variable) (temps : List (Nat × Ty)) :
    layout? (vs.map Variable.erase) temps = layout? vs temps := by
  have hsized : (vs.map Variable.erase).mapM (fun v => do return (v.name, v.ty, ← v.size?)) =
      (vs.mapM fun v => do return (v.name, v.ty, ← v.size?) : Option _) := List.mapM_map ..
  unfold layout?
  rw [hsized]

/-- A function that is lowered, without locations. -/
def FunctionSite.erase (site : FunctionSite) : FunctionSite := { site with env := site.env.erase }

namespace Lower

variable (site : FunctionSite)

theorem typeOf_erase (operand : Operand) : typeOf site.erase operand = typeOf site operand := by
  cases operand with
  | name x =>
    have hfind : site.erase.env.find? x = (site.env.find? x).map Binding.erase :=
      site.env.find?_erase x
    simp only [typeOf, hfind, Option.map_map]
    cases site.env.find? x with
    | none => rfl
    | some b =>
      obtain ⟨d, scope⟩ := b
      cases d <;> rfl
  | _ => rfl

theorem variableOffset?_erase (scope : Int) (x : String) :
    variableOffset? site.erase scope x = variableOffset? site scope x := by
  have hlocals : site.erase.env.locals scope = (site.env.locals scope).map Variable.erase :=
    site.env.locals_erase scope
  unfold variableOffset?
  rw [hlocals, Frame.layout?_erase]
  rfl

theorem named_erase (x : String) : named site.erase x = named site x := by
  have hfind : site.erase.env.find? x = (site.env.find? x).map Binding.erase :=
    site.env.find?_erase x
  unfold named
  rw [hfind]
  cases site.env.find? x with
  | none => rfl
  | some b =>
    obtain ⟨d, scope⟩ := b
    cases d with
    | var v =>
      simp only [Option.map_some, Binding.erase, Declaration.erase, variableOffset?_erase]
      rfl
    | param p =>
      have hparameters : site.erase.env.parameters scope =
          (site.env.parameters scope).map Parameter.erase := site.env.parameters_erase scope
      have hposition : (site.erase.env.parameters scope).findIdx? (fun q => q.name = x) =
          (site.env.parameters scope).findIdx? fun q => q.name = x := by
        rw [hparameters, List.findIdx?_map]
        rfl
      simp only [Option.map_some, Binding.erase, Declaration.erase, hposition]
      rfl
    | fn f => rfl

theorem memory_erase (operand : Operand) : memory site.erase operand = memory site operand := by
  cases operand with
  | name x => exact named_erase site x
  | _ => rfl

theorem load_erase (operand : Operand) (target : Register) :
    load site.erase operand target = load site operand target := by
  unfold load
  rw [typeOf_erase, memory_erase]

theorem store_erase (operand : Operand) (source : Register) :
    store site.erase operand source = store site operand source := by
  unfold store
  rw [typeOf_erase, memory_erase]

theorem address_erase (operand : Operand) :
    address site.erase operand = address site operand := by
  unfold address
  rw [memory_erase]

theorem pushArguments_erase (arguments : List Argument) :
    pushArguments site.erase arguments = pushArguments site arguments := by
  induction arguments with
  | nil => rfl
  | cons a as ih => rw [pushArguments, pushArguments, ih, address_erase, load_erase]

theorem call_erase (callee : FunctionLabel) : call site.erase callee = call site callee := by
  have hstore : store site.erase = store site :=
    funext fun operand => funext fun source => store_erase site operand source
  have harguments : pushArguments site.erase = pushArguments site :=
    funext (pushArguments_erase site)
  unfold call
  rw [hstore, harguments]
  rfl

theorem quad_erase (q : Quad) : quad site.erase q = quad site q := by
  have hload : load site.erase = load site :=
    funext fun operand => funext fun target => load_erase site operand target
  have hstore : store site.erase = store site :=
    funext fun operand => funext fun source => store_erase site operand source
  have haddress : address site.erase = address site := funext (address_erase site)
  have hcall : call site.erase = call site := funext (call_erase site)
  unfold quad quad.divide
  rw [hload, hstore, haddress, hcall]
  rfl

/-- The quads of a function are lowered to the same. -/
theorem body_erase : body site.erase = body site := by
  have hnumbered : ∀ q n, numbered site.erase q n = numbered site q n := by
    intro q n
    unfold numbered
    rw [quad_erase]
    rfl
  unfold body
  simp only [hnumbered]
  rfl

end Lower

/-- The function that is lowered is the same but for locations. -/
theorem Lower.site_erase (code : Code) (env : Environment) (label : FunctionLabel) :
    site code env.erase label = FunctionSite.erase <$> site code env label := by
  have hlocals : env.erase.locals env.erase.scope = (env.locals env.scope).map Variable.erase :=
    env.locals_erase env.scope
  unfold site
  rw [hlocals, map_bind]
  congr 1
  funext a
  dsimp only
  rw [Frame.layout?_erase]
  cases Frame.layout? (env.locals env.scope) _ <;> rfl

variable {l l' : Location} {c : Prop} {e e' : SemanticError} {cause : Cause}

def Progress.erase (p : Progress) : Progress := { p with env := p.env.erase }

namespace Emit

variable {S : Prop} {α β γ δ : Type}

/-- A result with its value changed, without locations. -/
def eraseResult (φ : α → β) :
    EStateM.Result CompileError Progress α → EStateM.Result CompileError Progress β
  | .ok a p => .ok (φ a) p.erase
  | .error e p => .error e.erase p.erase

def eraseError :
    EStateM.Result CompileError Progress β → EStateM.Result CompileError Progress β
  | .ok b p => .ok b p
  | .error e p => .error e.erase p

/-- A step fails only because the program has no meaning. -/
def OnlyRefuses (x : Emit α) : Prop :=
  ∀ p e p', x p = .error e p' → ∃ cause, e = .semantic cause

/-- Started without locations, one step gives what another gives, with its value changed and
without locations. Of the error the locations are left out on both sides. The
proposition says whether the step may only refuse. -/
structure Mirrors (S : Prop) (φ : α → β) (x : Emit α) (y : Emit β) : Prop where
  run (p : Progress) : eraseError (y p.erase) = eraseResult φ (x p)
  refuses : S → OnlyRefuses x

/-- Two steps give the same, but for locations. -/
abbrev Same (S : Prop) (x y : Emit α) : Prop := Mirrors S id x y

/-! ### Steps in a row -/

section Mirrors

variable {φ : α → β} {ψ : γ → δ} {x : Emit α} {y : Emit β}

theorem Mirrors.onlyRefuses (h : Mirrors True φ x y) : OnlyRefuses x := h.refuses trivial

theorem mirrors_of_ok
    (h : ∀ p, ∃ a p', x p = .ok a p' ∧ y p.erase = .ok (φ a) p'.erase) : Mirrors S φ x y := by
  refine ⟨fun p => ?_, fun _ p e p' he => ?_⟩
  all_goals obtain ⟨a, q, hx, hy⟩ := h p
  · rw [hx, hy]
    rfl
  · cases hx.symm.trans he

theorem mirrors_pure {a : α} {b : β} (h : b = φ a) : Mirrors S φ (pure a) (pure b) :=
  mirrors_of_ok fun p => ⟨a, p, rfl, h ▸ rfl⟩

theorem same_pure (a : α) : Same S (pure a) (pure a) := mirrors_pure rfl

theorem Mirrors.bind_ok {f : α → Emit γ} {g : β → Emit δ} (h : Mirrors S φ x y)
    (hfg : ∀ a p q, x p = .ok a q → Mirrors S ψ (f a) (g (φ a))) :
    Mirrors S ψ (x >>= f) (y >>= g) := by
  refine ⟨fun p => ?_, fun hs p e p' he => ?_⟩
  · have hp := h.run p
    cases hx : x p with
    | ok a q =>
      cases hy : y p.erase with
      | ok b q' =>
        rw [hx, hy] at hp
        cases hp
        rw [bind_of_ok hx, bind_of_ok hy]
        exact (hfg a p q hx).run q
      | error e q' =>
        rw [hx, hy] at hp
        cases hp
    | error e q =>
      cases hy : y p.erase with
      | ok b q' =>
        rw [hx, hy] at hp
        cases hp
      | error e' q' =>
        rw [hx, hy] at hp
        injection hp with he hq
        rw [bind_eq_error_iff.mpr (.inl hx), bind_eq_error_iff.mpr (.inl hy)]
        exact congr (congrArg error he) hq
  · obtain he | ⟨a, q, hx, he⟩ := bind_eq_error_iff.mp he
    · exact h.refuses hs p e p' he
    · exact (hfg a p q hx).refuses hs q e p' he

theorem Mirrors.bind {f : α → Emit γ} {g : β → Emit δ} (h : Mirrors S φ x y)
    (hfg : ∀ a, Mirrors S ψ (f a) (g (φ a))) : Mirrors S ψ (x >>= f) (y >>= g) :=
  h.bind_ok fun a _ _ _ => hfg a

theorem Same.bind {x y : Emit α} {f : α → Emit γ} {g : α → Emit δ} (h : Same S x y)
    (hfg : ∀ a, Mirrors S ψ (f a) (g a)) : Mirrors S ψ (x >>= f) (y >>= g) :=
  Mirrors.bind h hfg

theorem mirrors_refuse (h : e'.erase = e.erase) : Mirrors S φ (refuse e) (refuse e') := by
  refine ⟨fun p => ?_, fun _ p f p' hf => ?_⟩
  · change error (semantic e'.erase) p.erase =
      .error (.semantic e.erase) p.erase
    rw [h]
  · cases hf
    exact ⟨e, rfl⟩

/-- A refusal of which only the location differs. -/
theorem mirrors_refuse_at :
    Mirrors S φ (refuse ⟨cause, l, none⟩) (refuse ⟨cause, l', none⟩) := mirrors_refuse rfl

/-- A refusal that names a declaration. -/
theorem mirrors_refuse_declared {d : Location} :
    Mirrors S φ (refuse ⟨cause, l, some d⟩) (refuse ⟨cause, l', some d.erase⟩) :=
  mirrors_refuse (erase_declaredAt ..)

theorem mirrors_malformed {e e' : InternalError} (hs : ¬ S) (h : e'.erase = e.erase) :
    Mirrors S φ (malformed e) (malformed e') := by
  refine ⟨fun p => ?_, fun h => absurd h hs⟩
  change error (internal e'.erase) p.erase =
    .error (.internal e.erase) p.erase
  rw [h]

theorem mirrors_ite [Decidable c] {x' : Emit α} {y' : Emit β} (h : Mirrors S φ x y)
    (h' : Mirrors S φ x' y') : Mirrors S φ (if c then x else x') (if c then y else y') := by
  split
  · exact h
  · exact h'

/-- A check that refuses, in front of further steps. -/
theorem mirrors_check_of_iff {c' : Prop} [Decidable c] [Decidable c'] {f : Unit → Emit α}
    {g : Unit → Emit β} (hc : c' ↔ c) (he : e'.erase = e.erase) (h : Mirrors S φ (f ()) (g ())) :
    Mirrors S φ (if c then refuse e >>= f else f ()) (if c' then refuse e' >>= g else g ()) := by
  by_cases hpos : c
  · rw [if_pos hpos, if_pos (hc.mpr hpos)]
    exact Same.bind (mirrors_refuse he) fun _ => h
  · rw [if_neg hpos, if_neg (mt hc.mp hpos)]
    exact h

theorem mirrors_check [Decidable c] {f : Unit → Emit α} {g : Unit → Emit β}
    (he : e'.erase = e.erase) (h : Mirrors S φ (f ()) (g ())) :
    Mirrors S φ (if c then refuse e >>= f else f ()) (if c then refuse e' >>= g else g ()) :=
  mirrors_check_of_iff .rfl he h

end Mirrors

theorem same_forM_map {f : γ → Emit PUnit} {g : δ → Emit PUnit} {e : γ → δ} {as : List γ}
    (h : ∀ a ∈ as, Same S (f a) (g (e a))) : Same S (as.forM f) ((as.map e).forM g) := by
  induction as with
  | nil => exact same_pure _
  | cons a as ih =>
    obtain ⟨ha, has⟩ := forall_mem_cons.mp h
    exact ha.bind fun _ => ih has

theorem same_forM {f g : γ → Emit PUnit} {as : List γ} (h : ∀ a ∈ as, Same S (f a) (g a)) :
    Same S (as.forM f) (as.forM g) := by
  have hmap := same_forM_map (e := id) h
  rwa [map_id] at hmap

/-! ### Steps that only add code -/

theorem same_note (e : Event) : Same S (note e) (note e) := mirrors_of_ok fun _ => ⟨_, _, rfl, rfl⟩

theorem same_next : Same S next next := mirrors_of_ok fun _ => ⟨_, _, rfl, rfl⟩

theorem same_push (op : Opcode) (first second output : Option Operand) :
    Same S (push op first second output) (push op first second output) :=
  mirrors_of_ok fun _ => ⟨_, _, rfl, rfl⟩

theorem same_append (op : Opcode) (first second output : Option Operand) :
    Same S (append op first second output) (append op first second output) :=
  mirrors_of_ok fun _ => ⟨_, _, rfl, rfl⟩

theorem same_newTemp (ty : Ty) : Same S (newTemp ty) (newTemp ty) :=
  mirrors_of_ok fun _ => ⟨_, _, rfl, rfl⟩

theorem same_mark (quad : Nat) : Same S (mark quad) (mark quad) :=
  mirrors_of_ok fun _ => ⟨_, _, rfl, rfl⟩

theorem same_patch (pending : List Nat) (target : Nat) :
    Same S (patch pending target) (patch pending target) := mirrors_of_ok fun _ => ⟨_, _, rfl, rfl⟩

theorem same_patchHere (pending : List Nat) : Same S (patchHere pending) (patchHere pending) :=
  mirrors_of_ok fun _ => ⟨_, _, rfl, rfl⟩

theorem same_arithmetic (operator : Arith) (left right : Operand) :
    Same S (arithmetic operator left right) (arithmetic operator left right) :=
  mirrors_of_ok fun _ => ⟨_, _, rfl, rfl⟩

theorem same_element (array : Computed) (extents : List Nat) (offset : Operand) :
    Same S (element array extents offset) (element array extents offset) :=
  mirrors_of_ok fun _ => ⟨_, _, rfl, rfl⟩

theorem same_passArguments (arguments : List Argument) :
    Same S (passArguments arguments) (passArguments arguments) :=
  same_forM fun _ _ => same_append ..

theorem callQuad_erase (f : FunctionDecl) (scope : Int) :
    callQuad f.erase scope = callQuad f scope := by
  unfold callQuad
  rw [FunctionDecl.isStandard_erase]
  rfl

theorem same_callQuad (f : FunctionDecl) (scope : Int) :
    Same S (callQuad f scope) (callQuad f.erase scope) := by
  rw [callQuad_erase]
  exact same_append ..

theorem same_invoke (f : FunctionDecl) (scope : Int) (arguments : List Argument) :
    Same S (invoke f scope arguments) (invoke f.erase scope arguments) :=
  (same_passArguments arguments).bind fun _ => mirrors_ite
    ((same_callQuad f scope).bind fun _ => same_pure _)
    ((same_newTemp f.result).bind fun _ => (same_append ..).bind fun _ =>
      (same_callQuad f scope).bind fun _ => same_pure _)

/-! ### Checks -/

section Checks

variable (l l' : Location)

theorem same_checkSubscripts (array : Computed) (count : Nat) :
    Same S (checkSubscripts l array count) (checkSubscripts l' array count) := by
  unfold checkSubscripts
  refine mirrors_check ?_ ?_
  · rfl
  · exact mirrors_ite mirrors_refuse_at (same_pure _)

theorem same_subscript (c : Computed) : Same S (subscript l c) (subscript l' c) :=
  mirrors_ite (same_pure _) mirrors_refuse_at

theorem same_cellCount (n : Nat) : Same S (cellCount l n) (cellCount l' n) :=
  mirrors_ite (same_pure _) mirrors_refuse_at

theorem same_rowStart (offset : Operand) (extents : List Nat) :
    Same S (rowStart l offset extents) (rowStart l' offset extents) := by
  unfold rowStart
  refine mirrors_ite (same_pure _) ?_
  cases rowCells? extents with
  | none => exact mirrors_refuse_at
  | some n => exact (same_cellCount l l' n).bind fun _ => same_arithmetic ..

theorem same_arithOf (operator : Arith) (left right : Computed) :
    Same S (arithOf l operator left right) (arithOf l' operator left right) :=
  mirrors_ite ((same_arithmetic ..).bind fun _ => same_pure _) mirrors_refuse_at

theorem same_signOf (sign : Sign) (c : Computed) : Same S (signOf l sign c) (signOf l' sign c) := by
  refine mirrors_ite ?_ mirrors_refuse_at
  cases sign with
  | minus => exact (same_arithmetic ..).bind fun _ => same_pure _
  | plus => exact same_pure _

theorem same_comparison (relation : Relation) (left right : Computed) :
    Same S (comparison l relation left right) (comparison l' relation left right) :=
  mirrors_ite ((same_push ..).bind fun _ => (same_push ..).bind fun _ => same_pure _)
    mirrors_refuse_at

theorem same_assign (target value : Computed) :
    Same S (assign l target value) (assign l' target value) :=
  mirrors_ite (same_append ..) mirrors_refuse_at

theorem same_checkArgument (f : FunctionDecl) (p : Parameter) (c : Computed) :
    Same S (checkArgument f p l c) (checkArgument f.erase p.erase l' c) := by
  unfold checkArgument
  refine mirrors_check ?_ ?_
  · exact erase_declaredAt ..
  · exact mirrors_ite mirrors_refuse_declared (same_pure _)

end Checks

/-! ### Names -/

theorem mirrors_find? (x : String) :
    Mirrors S (Option.map Binding.erase) (find? x) (find? x) := by
  refine mirrors_of_ok fun p => ⟨p.env.find? x, p, rfl, ?_⟩
  rw [← Environment.find?_erase]
  rfl

theorem same_named (l l' : Location) (x : String) : Same S (named l x) (named l' x) := by
  refine (mirrors_find? x).bind fun b? => ?_
  rcases b? with _ | ⟨d, scope⟩
  · exact mirrors_refuse_at
  · cases d with
    | var v => exact same_pure _
    | param p => exact same_pure _
    | fn f => exact mirrors_refuse_declared

theorem mirrors_callee (l l' : Location) (f : String) (arguments : Nat) (isStatement : Bool) :
    Mirrors S (Prod.map FunctionDecl.erase id) (callee l f arguments isStatement)
      (callee l' f arguments isStatement) := by
  refine (mirrors_find? f).bind fun b? => ?_
  rcases b? with _ | ⟨d, scope⟩
  · exact mirrors_refuse_at
  · cases d with
    | var v => exact mirrors_refuse_declared
    | param p => exact mirrors_refuse_declared
    | fn g =>
      have hlength : g.erase.parameters.length = g.parameters.length := length_map ..
      dsimp only [Option.map_some, Binding.erase, Declaration.erase]
      rw [hlength]
      refine mirrors_check ?_ (mirrors_check ?_ (mirrors_check ?_ (mirrors_pure rfl)))
      all_goals exact erase_declaredAt ..

/-! ### Declarations and scopes -/

/-- Notes an event and goes on with an environment, or fails. -/
def adopt (e : Event) : Except SemanticError Environment → Emit Unit
  | .ok env' => do
      note e
      modify fun p => { p with env := env' }
  | .error e => refuse e

theorem same_adopt {e : Event} {outcome outcome' : Except SemanticError Environment}
    (h : Alike Environment.erase outcome outcome') :
    Same S (adopt e outcome) (adopt e outcome') := by
  cases h with
  | ok env => exact mirrors_of_ok fun _ => ⟨_, _, rfl, rfl⟩
  | error h => exact mirrors_refuse h

theorem declare_run (d : Declaration) (p : Progress) :
    declare d p = adopt (.bound d.name p.env.scope) (p.env.declare d) p := by
  change (match p.env.declare d with | .ok env' => _ | .error e => _ : Emit Unit) p = _
  cases p.env.declare d <;> rfl

theorem leaveScope_run (p : Progress) :
    leaveScope p = adopt (.left p.env.scope p.env.innermost.length) p.env.leave p := by
  change (match p.env.leave with | .ok env' => _ | .error e => _ : Emit Unit) p = _
  cases p.env.leave <;> rfl

/-- What a step does may depend on the progress. -/
theorem same_of_run {x y : Emit α}
    (h : ∀ p, ∃ x' y', x p = x' p ∧ y p.erase = y' p.erase ∧ Same S x' y') : Same S x y := by
  refine ⟨fun p => ?_, fun hs p e p' he => ?_⟩
  all_goals obtain ⟨x', y', hx, hy, h⟩ := h p
  · rw [hx, hy]
    exact h.run p
  · exact h.refuses hs p e p' (hx ▸ he)

theorem same_declare (d : Declaration) : Same S (declare d) (declare d.erase) := by
  refine same_of_run fun p => ⟨_, _, declare_run d p, declare_run d.erase p.erase, ?_⟩
  rw [Declaration.name_erase]
  exact same_adopt (p.env.declare_erase d)

theorem same_enterScope : Same S enterScope enterScope := mirrors_of_ok fun _ => ⟨_, _, rfl, rfl⟩

theorem same_leaveScope : Same S leaveScope leaveScope := by
  refine same_of_run fun p => ⟨_, _, leaveScope_run p, leaveScope_run p.erase, ?_⟩
  have hremoved : p.erase.env.innermost.length = p.env.innermost.length := by
    change p.env.erase.innermost.length = _
    rw [Environment.innermost_erase, length_map]
  rw [hremoved]
  exact same_adopt p.env.leave_erase

/-! ### Completed functions -/

theorem mirrors_get : Mirrors S Progress.erase (get : Emit Progress) get :=
  mirrors_of_ok fun _ => ⟨_, _, rfl, rfl⟩

theorem mirrors_lower (φ : α → β) (step : Lower α) :
    Mirrors False φ (lower step) (lower (φ <$> step)) := by
  refine ⟨fun p => ?_, False.elim⟩
  change eraseError (lower (EStateM.map φ step) p.erase) = _
  simp only [lower, EStateM.map, show p.erase.assembly = p.assembly from rfl]
  cases step p.assembly <;> rfl

theorem same_lower (step : Lower α) : Same False (lower step) (lower step) := by
  have h := mirrors_lower id step
  rwa [id_map] at h

theorem same_lowerFunction (label : FunctionLabel) :
    Same False (lowerFunction label) (lowerFunction label) := by
  refine mirrors_get.bind fun p => ?_
  change Same False _ (lower (site p.code p.env.erase label) >>= _)
  rw [site_erase]
  refine (mirrors_lower FunctionSite.erase _).bind fun site => ?_
  rw [body_erase]
  exact (same_note _).bind fun _ => same_lower _

theorem same_divideFunction (label : FunctionLabel) :
    Same S (divideFunction label) (divideFunction label) := mirrors_of_ok fun _ => ⟨_, _, rfl, rfl⟩

end Emit

end BlockLang
