import BlockLang.Compile
import BlockLang.Proofs.Emit.Erasure
import BlockLang.Proofs.Tree.Legible

/-!
# Code without locations

The code of a tree is that of the tree without locations, in which variables and parameters
are declared one by one: the same quads, blocks and assembly come out, or the same error but
for its locations. For a proper tree, emitting its code can only be refused.
-/

namespace BlockLang

open Emit List Parameter ParameterGroup

namespace Stmt

mutual

theorem returnsValue_erase : ∀ s : Stmt, s.erase.returnsValue = s.returnsValue
  | empty | assign .. | call _ | returnValue .. | returnNothing _ | missing _ => rfl
  | block body => someReturnsValue_eraseAll body
  | ifThen _ body => body.returnsValue_erase
  | ifElse _ body otherwise => by
    rw [erase, returnsValue, returnsValue, body.returnsValue_erase, otherwise.returnsValue_erase]
  | whileDo _ body => body.returnsValue_erase

theorem someReturnsValue_eraseAll : ∀ ss, someReturnsValue (eraseAll ss) = someReturnsValue ss
  | [] => rfl
  | s :: ss => by
    rw [eraseAll, someReturnsValue, someReturnsValue, s.returnsValue_erase,
      someReturnsValue_eraseAll ss]

end

end Stmt

/-! ### Headers -/

namespace Header

/-- The parameters of a header, each with its group. -/
def entries (header : Header) : List (ParameterGroup × DeclaredName) :=
  header.groups.flatMap fun group => group.names.map fun x => (group, x)

def parameter (entry : ParameterGroup × DeclaredName) : Except SemanticError Parameter :=
  if (entry.1.isOpen ∨ entry.1.extents ≠ []) ∧ ¬ entry.1.byReference then
    .error ⟨.arrayByValue entry.2.text, entry.2.location, none⟩
  else
    .ok ⟨⟨entry.2.text, entry.2.location, entry.1.ty, entry.1.extents⟩, entry.1.byReference,
      entry.1.isOpen⟩

theorem parameters_eq (group : ParameterGroup) :
    group.parameters = (group.names.map fun x => (group, x)).mapM parameter := by
  rw [mapM_map]
  rfl

theorem signature_eq (header : Header) (isDefined : Bool) :
    header.signature isDefined = header.entries.mapM parameter >>= fun ps =>
      .ok ⟨header.name, header.location, header.result, ps, isDefined, 0⟩ := by
  have hflatten : ∀ groups : List ParameterGroup,
      (groups.mapM parameters).map flatten =
        (groups.flatMap fun group => group.names.map fun x => (group, x)).mapM parameter := by
    intro groups
    induction groups with
    | nil => rfl
    | cons group groups ih =>
      rw [flatMap_cons, mapM_append, ← ih, mapM_cons, parameters_eq]
      cases (group.names.map fun x => (group, x)).mapM parameter with
      | error e => rfl
      | ok ps => cases groups.mapM parameters <;> rfl
  rw [entries, ← hflatten]
  unfold signature
  cases header.groups.mapM parameters <;> rfl

/-- An entry as the only one of its group, without locations. -/
def single (entry : ParameterGroup × DeclaredName) : ParameterGroup × DeclaredName :=
  ({ entry.1 with names := [entry.2.erase] }, entry.2.erase)

theorem entries_erase (header : Header) : header.erase.entries = header.entries.map single := by
  simp only [entries, erase, flatMap_assoc, map_flatMap]
  congr 1
  funext group
  rw [parts, flatMap_map, map_map]
  exact map_eq_flatMap.symm

theorem alike_parameter (entry : ParameterGroup × DeclaredName) :
    Alike Parameter.erase (parameter entry) (parameter (single entry)) := by
  by_cases h : (entry.1.isOpen ∨ entry.1.extents ≠ []) ∧ ¬ entry.1.byReference
  · have hentry : parameter entry = .error _ := if_pos h
    have hsingle : parameter (single entry) = .error _ := if_pos h
    rw [hentry, hsingle]
    exact .error rfl
  · have hentry : parameter entry = .ok _ := if_neg h
    have hsingle : parameter (single entry) = .ok _ := if_neg h
    rw [hentry, hsingle]
    exact .ok _

theorem alike_parameters (entries : List (ParameterGroup × DeclaredName)) :
    Alike (map Parameter.erase) (entries.mapM parameter)
      ((entries.map single).mapM parameter) := by
  induction entries with
  | nil => exact .ok []
  | cons entry entries ih =>
    rw [map_cons, mapM_cons, mapM_cons]
    exact (alike_parameter entry).bind fun p => ih.bind fun ps => .ok (p :: ps)

/-- The function that a header declares, without locations. -/
theorem signature_erase (header : Header) (isDefined : Bool) :
    Alike FunctionDecl.erase (header.signature isDefined)
      (header.erase.signature isDefined) := by
  rw [signature_eq, signature_eq, entries_erase]
  exact (alike_parameters header.entries).bind fun ps =>
    .ok (⟨header.name, header.location, header.result, ps, isDefined, 0⟩ : FunctionDecl)

end Header

namespace Emit

variable {S : Prop}

/-! ### Expressions and conditions -/

mutual

theorem same_expression : ∀ e, (S → e.IsValue) → Same S (expression e) (expression e.erase)
  | .name l x, _ => same_named l .start x
  | .int .., _ => same_pure _
  | .char .., _ => same_pure _
  | .string .., _ => same_pure _
  | .index l base first more, h => by
    rw [Expr.erase, expression, expression, Expr.length_eraseAll]
    refine (same_expression base fun s => (h s).1).bind fun array => ?_
    refine (same_checkSubscripts l .start array _).bind fun _ => ?_
    refine (same_expression first fun s => (h s).2.1).bind fun c => ?_
    refine (same_subscript _ _ c).bind fun offset => ?_
    refine (same_rowOffset l .start _ offset more fun s => (h s).2.2).bind fun offset' => ?_
    exact (same_rowStart l .start offset' _).bind fun start => same_element array _ start
  | .call l f arguments, h => by
    rw [Expr.erase, expression, expression, Expr.length_eraseAll]
    refine (mirrors_callee l .start f _ false).bind_ok fun b _ _ hg => ?_
    obtain ⟨g, scope⟩ := b
    refine (same_argumentsOf g g.parameters arguments h).bind fun as => ?_
    refine (same_invoke g scope as).bind_ok fun c _ _ hc => ?_
    -- only a function with a result is called for its value
    rw [invoke_result (mt (callee_ok hg).2.2.2.mpr nofun)] at hc
    cases hc
    exact same_pure _
  | .group _ inner, h => (same_expression inner h).bind fun _ => same_pure _
  | .arith l operator left right, h =>
    (same_expression left fun s => (h s).1).bind fun _ =>
      (same_expression right fun s => (h s).2).bind fun _ => same_arithOf l .start operator _ _
  | .sign l sign operand, h =>
    (same_expression operand h).bind fun _ => same_signOf l .start sign _
  | .missing _, h => mirrors_malformed h rfl
  | .compare .., h => mirrors_malformed h rfl
  | .logic .., h => mirrors_malformed h rfl
  | .not .., h => mirrors_malformed h rfl

theorem same_rowOffset (l l' : Location) : ∀ extents offset es, (S → Expr.AreValues es) →
    Same S (rowOffset l extents offset es) (rowOffset l' extents offset (Expr.eraseAll es))
  | _, _, [], _ => same_pure _
  | extents, offset, e :: es, h => by
    rw [Expr.eraseAll, rowOffset, rowOffset]
    refine (same_expression e fun s => (h s).1).bind fun c => ?_
    refine (same_subscript _ _ c).bind fun index => (same_cellCount l l' _).bind fun cells => ?_
    refine (same_arithmetic ..).bind fun scaled => (same_arithmetic ..).bind fun offset' => ?_
    exact same_rowOffset l l' extents.tail offset' es fun s => (h s).2

theorem same_argumentsOf (f : FunctionDecl) : ∀ ps es, (S → Expr.AreValues es) →
    Same S (argumentsOf f ps es)
      (argumentsOf f.erase (ps.map erase) (Expr.eraseAll es))
  | p :: ps, e :: es, h => by
    rw [Expr.eraseAll, map_cons, argumentsOf, argumentsOf]
    refine (same_expression e fun s => (h s).1).bind fun c => ?_
    refine (same_checkArgument _ _ f p c).bind fun _ => ?_
    exact (same_argumentsOf f ps es fun s => (h s).2).bind fun _ => same_pure _
  | [], [], _ => same_pure _
  | [], _ :: _, _ => same_pure _
  | _ :: _, [], _ => same_pure _

end

theorem same_condition : ∀ e, (S → e.IsCondition) → Same S (condition e) (condition e.erase)
  | .group _ inner, h => same_condition inner h
  | .not _ operand, h => (same_condition operand h).bind fun _ => same_pure _
  | .logic _ .or left right, h =>
    (same_condition left fun s => (h s).1).bind fun _ => (same_patchHere _).bind fun _ =>
      (same_condition right fun s => (h s).2).bind fun _ => same_pure _
  | .logic _ .and left right, h =>
    (same_condition left fun s => (h s).1).bind fun _ => (same_patchHere _).bind fun _ =>
      (same_condition right fun s => (h s).2).bind fun _ => same_pure _
  | .compare l relation left right, h =>
    (same_expression left fun s => (h s).1).bind fun _ =>
      (same_expression right fun s => (h s).2).bind fun _ => same_comparison l .start relation _ _
  | .missing _, h => mirrors_malformed h rfl
  | .name .., h => mirrors_malformed h rfl
  | .int .., h => mirrors_malformed h rfl
  | .char .., h => mirrors_malformed h rfl
  | .string .., h => mirrors_malformed h rfl
  | .index .., h => mirrors_malformed h rfl
  | .call .., h => mirrors_malformed h rfl
  | .arith .., h => mirrors_malformed h rfl
  | .sign .., h => mirrors_malformed h rfl

/-! ### Statements -/

theorem same_callForEffect (e : Expr) (h : S → e.IsCall ∧ e.IsValue) :
    Same S (callForEffect e) (callForEffect e.erase) := by
  cases e with
  | call l f arguments =>
    rw [Expr.erase, callForEffect, callForEffect, Expr.length_eraseAll]
    refine (mirrors_callee l .start f _ true).bind fun b => ?_
    obtain ⟨g, scope⟩ := b
    refine (same_argumentsOf g g.parameters arguments fun s => (h s).2).bind fun as => ?_
    exact (same_invoke g scope as).bind fun _ => same_pure _
  | _ => exact mirrors_malformed (fun s => (h s).1) rfl

section Function

variable (function : String) (result : Ty)

theorem same_returnValue (l l' : Location) (value : Expr) (h : S → value.IsValue) :
    Same S (returnValue function result l value) (returnValue function result l' value.erase) := by
  unfold returnValue
  refine mirrors_check ?_ ?_
  · rfl
  · refine (same_expression value h).bind fun c => mirrors_ite ?_ mirrors_refuse_at
    exact (same_append ..).bind fun _ => same_append ..

theorem same_returnNothing (l l' : Location) :
    Same S (returnNothing function result l) (returnNothing function result l') :=
  mirrors_ite (same_append ..) mirrors_refuse_at

mutual

theorem same_statement : ∀ s, (S → s.IsProper) →
    Same S (statement function result s) (statement function result s.erase)
  | .empty, _ => same_pure _
  | .assign l target value, h =>
    (same_expression target fun s => (h s).1).bind fun _ =>
      (same_expression value fun s => (h s).2).bind fun _ =>
        (same_assign l .start _ _).bind fun _ => same_pure _
  | .call e, h => (same_callForEffect e h).bind fun _ => same_pure _
  | .block body, h => same_statements [] body h
  | .ifThen c body, h =>
    (same_condition c fun s => (h s).1).bind fun _ => (same_patchHere _).bind fun _ =>
      (same_statement body fun s => (h s).2).bind fun _ => (same_patchHere _).bind fun _ =>
        same_pure _
  | .ifElse c body otherwise, h =>
    (same_condition c fun s => (h s).1).bind fun _ => (same_patchHere _).bind fun _ =>
      (same_statement body fun s => (h s).2.1).bind fun _ => (same_push ..).bind fun _ =>
        (same_patchHere _).bind fun _ =>
          (same_statement otherwise fun s => (h s).2.2).bind fun _ => same_pure _
  | .whileDo c body, h =>
    same_next.bind fun head => (same_mark head).bind fun _ =>
      (same_condition c fun s => (h s).1).bind fun _ => (same_patchHere _).bind fun _ =>
        (same_statement body fun s => (h s).2).bind fun _ => (same_patch _ head).bind fun _ =>
          (same_append ..).bind fun _ => same_pure _
  | .returnValue l value, h =>
    (same_returnValue function result l .start value h).bind fun _ => same_pure _
  | .returnNothing l, _ => (same_returnNothing function result l .start).bind fun _ => same_pure _
  | .missing _, h => mirrors_malformed h rfl

theorem same_statements : ∀ pending ss, (S → Stmt.AreProper ss) →
    Same S (statements function result pending ss)
      (statements function result pending (Stmt.eraseAll ss))
  | _, [], _ => same_pure _
  | pending, s :: ss, h =>
    (same_patchHere pending).bind fun _ => (same_statement s fun s => (h s).1).bind fun pending' =>
      same_statements pending' ss fun s => (h s).2

end

end Function

/-! ### Declarations -/

theorem same_serialOf (x : String) : Same S (serialOf x) (serialOf x) := by
  refine mirrors_get.bind fun p => ?_
  have hcount : Same S (do
      modify fun p' => { p' with functions := (x, p.env.scope) :: p'.functions }
      return p.functions.count (x, p.env.scope) : Emit Nat) (do
      modify fun p' => { p' with functions := (x, p.env.scope) :: p'.functions }
      return p.functions.count (x, p.env.scope)) := mirrors_of_ok fun _ => ⟨_, _, rfl, rfl⟩
  have hfind : p.erase.env.find? x = (p.env.find? x).map Binding.erase := p.env.find?_erase x
  dsimp only
  rw [hfind]
  rcases p.env.find? x with _ | ⟨d, scope⟩
  · exact hcount
  · cases d with
    | var v => exact hcount
    | param q => exact hcount
    | fn f => exact mirrors_ite (same_pure _) hcount

theorem same_introduce (f : FunctionDecl) : Same S (introduce f) (introduce f.erase) :=
  (same_serialOf f.name).bind fun _ => mirrors_get.bind fun _ =>
    (same_declare (.fn { f with serial := _ })).bind fun _ => same_pure _

theorem same_declareVariable (function : String) (ty : Ty) (extents : List Nat)
    (x : DeclaredName) :
    Same S (declareVariable function ty extents x)
      (declareVariable function ty extents x.erase) := by
  refine (same_declare (.var ⟨x.text, x.location, ty, extents⟩)).bind fun _ => ?_
  refine mirrors_get.bind fun p => ?_
  have hlocals : p.erase.env.locals p.erase.env.scope =
      (p.env.locals p.env.scope).map Variable.erase := p.env.locals_erase p.env.scope
  dsimp only
  rw [hlocals, Frame.layout?_erase]
  exact mirrors_ite mirrors_refuse_at (same_pure _)

theorem same_openFunction (f : FunctionDecl) (label : FunctionLabel) :
    Same S (openFunction f label) (openFunction f.erase label) := by
  refine (same_note _).bind fun _ => same_enterScope.bind fun _ => ?_
  change Same S _ ((f.parameters.map erase).forM _)
  exact same_forM_map fun q _ => same_declare (.param q)

theorem same_closeFunction (f : FunctionDecl) (label : FunctionLabel) (body : List Stmt) :
    Same False (closeFunction f label body) (closeFunction f.erase label (Stmt.eraseAll body)) := by
  unfold closeFunction
  rw [Stmt.someReturnsValue_eraseAll]
  refine (same_append ..).bind fun _ => ?_
  refine (same_statements f.name f.result [] body False.elim).bind fun _ => ?_
  refine (same_patchHere _).bind fun _ => (same_append ..).bind fun _ => mirrors_check ?_ ?_
  · rfl
  · exact (same_lowerFunction label).bind fun _ => (same_divideFunction label).bind fun _ =>
      same_leaveScope

theorem mirrors_signature (header : Header) (isDefined : Bool) :
    Mirrors S FunctionDecl.erase (signature header isDefined)
      (signature header.erase isDefined) := by
  have h := header.signature_erase isDefined
  unfold signature
  generalize header.signature isDefined = outcome, header.erase.signature isDefined = outcome' at h
  cases h with
  | ok f => exact mirrors_pure rfl
  | error h => exact mirrors_refuse h

theorem declareLocals_append (owner : String) (ds ds' : List Decl) :
    declareLocals owner (ds ++ ds') =
      declareLocals owner ds >>= fun _ => declareLocals owner ds' := by
  induction ds with
  | nil => rfl
  | cons d ds ih =>
    rw [cons_append, declareLocals, declareLocals, ih, bind_assoc]

theorem declareLocals_singleton (owner : String) (d : Decl) :
    declareLocals owner [d] = declareLocal owner d := by
  rw [declareLocals, declareLocals]
  exact bind_pure_unit

/-- Variables that share a type are declared one by one. -/
theorem same_vars (owner : String) (ty : Ty) (extents : List Nat) (names : List DeclaredName) :
    Same S (names.forM (declareVariable owner ty extents))
      (declareLocals owner (names.map fun x => .vars [x.erase] ty extents)) := by
  induction names with
  | nil => exact same_pure _
  | cons x xs ih =>
    rw [map_cons, declareLocals, declareLocal]
    refine Same.bind ?_ fun _ => ih
    have hone : List.forM [x.erase] (declareVariable owner ty extents) =
        declareVariable owner ty extents x.erase := bind_pure_unit
    rw [hone]
    exact same_declareVariable owner ty extents x

mutual

/-- A declaration is mirrored by its parts. -/
theorem same_declareLocal (owner : String) : ∀ d,
    Same False (declareLocal owner d) (declareLocals owner d.parts)
  | .vars names ty extents => same_vars owner ty extents names
  | .forward header => by
    rw [Decl.parts, declareLocals_singleton, declareLocal, declareLocal]
    exact (mirrors_signature header false).bind fun f => (same_introduce f).bind fun _ =>
      same_pure _
  | .function header locals body => by
    rw [Decl.parts, declareLocals_singleton, declareLocal, declareLocal]
    refine (mirrors_signature header true).bind fun f => (same_introduce f).bind fun label => ?_
    refine (same_openFunction f label).bind fun _ => ?_
    exact (same_declareLocals header.name locals).bind fun _ => same_closeFunction f label body
  | .missing n => by
    rw [Decl.parts, declareLocals_singleton]
    exact mirrors_malformed id rfl

theorem same_declareLocals (owner : String) : ∀ ds,
    Same False (declareLocals owner ds) (declareLocals owner (Decl.partsAll ds))
  | [] => same_pure _
  | d :: ds => by
    rw [Decl.partsAll, declareLocals_append, declareLocals]
    exact (same_declareLocal owner d).bind fun _ => same_declareLocals owner ds

end

theorem same_program (header : Header) (locals : List Decl) (body : List Stmt) :
    Same False (program (some (.function header locals body)))
      (program (some (.function header.erase (Decl.partsAll locals) (Stmt.eraseAll body)))) := by
  rw [program, program]
  refine (mirrors_signature header true).bind fun f => ?_
  have hempty : f.erase.parameters ≠ [] ↔ f.parameters ≠ [] := by
    rw [FunctionDecl.erase, ne_eq, map_eq_nil_iff]
  refine mirrors_check_of_iff (or_congr hempty .rfl) ?_ ?_
  · rfl
  · refine (same_forM fun g hg => ?_).bind fun _ => same_enterScope.bind fun _ => ?_
    · have hdeclare := same_declare (S := False) (.fn g)
      rwa [Declaration.erase, FunctionDecl.erase_standard g hg] at hdeclare
    · refine (same_introduce f).bind fun label => (same_lower _).bind fun _ => ?_
      refine (same_openFunction f label).bind fun _ => ?_
      refine (same_declareLocals header.name locals).bind fun _ => ?_
      exact (same_closeFunction f label body).bind fun _ => same_leaveScope

end Emit

/-! ### Whole trees -/

/-- The results of a tree depend on the progress without locations. -/
theorem Progress.compilation_congr {p p' : Progress} {tree tree' : Decl} (h : p.erase = p'.erase)
    (htext : programText (some tree) = programText (some tree')) :
    p.compilation tree = p'.compilation tree' := by
  have hcode : p.erase.code = p'.erase.code := congrArg Progress.code h
  have hblocks : p.erase.blocks = p'.erase.blocks := congrArg Progress.blocks h
  have hassembly : p.erase.assembly = p'.erase.assembly := congrArg Progress.assembly h
  change p.code = p'.code at hcode
  change p.blocks = p'.blocks at hblocks
  change p.assembly = p'.assembly at hassembly
  rw [compilation, compilation, blocksText, blocksText, htext, hcode, hblocks, hassembly]

/-- Functions with the same text and the same parts compile to the same, but for the locations
of an error. -/
theorem compileTree_congr {tree tree' : Decl} (hfunction : tree.IsFunction)
    (hfunction' : tree'.IsFunction) (hparts : tree.parts = tree'.parts)
    (htext : programText (some tree) = programText (some tree')) :
    (compileTree tree).1.mapError CompileError.erase =
      (compileTree tree').1.mapError CompileError.erase := by
  have hresult : eraseResult id (program (some tree) {}) =
      eraseResult id (program (some tree') {}) := by
    cases tree with
    | function header locals body =>
      cases tree' with
      | function header' locals' body' =>
        rw [← (same_program header locals body).run {},
          ← (same_program header' locals' body').run {}]
        rw [Decl.parts, Decl.parts] at hparts
        rw [cons.inj hparts |>.1]
      | _ => exact hfunction'.elim
    | _ => exact hfunction.elim
  unfold compileTree
  cases hrun : program (some tree) {} with
  | ok u p =>
    cases hrun' : program (some tree') {} with
    | ok u' p' =>
      rw [hrun, hrun'] at hresult
      injection hresult with _ hp
      exact congrArg Except.ok (Progress.compilation_congr hp htext)
    | error e' p' =>
      rw [hrun, hrun'] at hresult
      cases hresult
  | error e p =>
    cases hrun' : program (some tree') {} with
    | ok u' p' =>
      rw [hrun, hrun'] at hresult
      cases hresult
    | error e' p' =>
      rw [hrun, hrun'] at hresult
      injection hresult with he _
      exact congrArg Except.error he

end BlockLang
