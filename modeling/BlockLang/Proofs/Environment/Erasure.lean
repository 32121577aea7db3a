import BlockLang.CompileError
import BlockLang.Environment

/-!
# Environments without locations

Where a name is declared matters only for messages, except that standard routines are known
by their location. Looking names up, declaring them and leaving a scope therefore give the
same without locations, and so do the errors.
-/

namespace BlockLang

open FunctionDecl List

/-- A location in the text becomes its start. That something belongs to the standard library
is kept. -/
def Location.erase : Location → Location
  | source _ => .start
  | standardLibrary => .standardLibrary

theorem Location.erase_of_ne {l : Location} (h : l ≠ .standardLibrary) : l.erase = .start := by
  cases l with
  | source p => rfl
  | standardLibrary => exact absurd rfl h

@[simp] theorem Location.erase_erase (l : Location) : l.erase.erase = l.erase := by
  cases l <;> rfl

@[simp] theorem Location.erase_eq_standardLibrary {l : Location} :
    l.erase = .standardLibrary ↔ l = .standardLibrary := by
  cases l with
  | source p => exact ⟨nofun, nofun⟩
  | standardLibrary => exact ⟨fun _ => rfl, fun _ => rfl⟩

namespace Expr

mutual

/-- An expression without locations. -/
def erase : Expr → Expr
  | name _ x => name .start x
  | int _ value => int .start value
  | char _ byte => char .start byte
  | string _ s => string .start s
  | index _ base first more => index .start base.erase first.erase (eraseAll more)
  | call _ f arguments => call .start f (eraseAll arguments)
  | group _ inner => group .start inner.erase
  | arith _ operator left right => arith .start operator left.erase right.erase
  | sign _ s operand => sign .start s operand.erase
  | compare _ relation left right => compare .start relation left.erase right.erase
  | logic _ connective left right => logic .start connective left.erase right.erase
  | not _ operand => not .start operand.erase
  | missing n => missing n

def eraseAll : List Expr → List Expr
  | [] => []
  | e :: es => e.erase :: eraseAll es

end

@[simp] theorem length_eraseAll (es : List Expr) : (eraseAll es).length = es.length := by
  induction es with
  | nil => rfl
  | cons e es ih => rw [eraseAll, List.length_cons, List.length_cons, ih]

end Expr

namespace Stmt

mutual

def erase : Stmt → Stmt
  | empty => empty
  | assign _ target value => assign .start target.erase value.erase
  | call e => call e.erase
  | block body => block (eraseAll body)
  | ifThen c body => ifThen c.erase body.erase
  | ifElse c body otherwise => ifElse c.erase body.erase otherwise.erase
  | whileDo c body => whileDo c.erase body.erase
  | returnValue _ value => returnValue .start value.erase
  | returnNothing _ => returnNothing .start
  | missing n => missing n

def eraseAll : List Stmt → List Stmt
  | [] => []
  | s :: ss => s.erase :: eraseAll ss

end

end Stmt

def DeclaredName.erase (x : DeclaredName) : DeclaredName := ⟨x.text, x.location.erase⟩

/-- The parameters of a group, each as a group of its own. -/
def ParameterGroup.parts (group : ParameterGroup) : List ParameterGroup :=
  group.names.map fun x => { group with names := [x.erase] }

def Header.erase (header : Header) : Header :=
  ⟨header.name, header.location.erase, header.groups.flatMap ParameterGroup.parts, header.result⟩

namespace Decl

mutual

/-- A declaration as declarations of one name each, without locations. -/
def parts : Decl → List Decl
  | function header locals body =>
      [function header.erase (partsAll locals) (Stmt.eraseAll body)]
  | forward header => [forward header.erase]
  | vars names ty extents => names.map fun x => vars [x.erase] ty extents
  | missing n => [missing n]

/-- Declarations as declarations of one name each, without locations. -/
def partsAll : List Decl → List Decl
  | [] => []
  | d :: ds => d.parts ++ partsAll ds

end

end Decl

/-! ### Declarations -/

def Variable.erase (v : Variable) : Variable := { v with location := v.location.erase }

def Parameter.erase (p : Parameter) : Parameter := { p with location := p.location.erase }

def FunctionDecl.erase (f : FunctionDecl) : FunctionDecl :=
  { f with location := f.location.erase, parameters := f.parameters.map Parameter.erase }

def Declaration.erase : Declaration → Declaration
  | var v => var v.erase
  | param p => param p.erase
  | fn f => fn f.erase

def Binding.erase (b : Binding) : Binding := ⟨b.declaration.erase, b.scope⟩

def Environment.erase (env : Environment) : Environment :=
  ⟨env.bindings.map Binding.erase, env.scope⟩

/-! ### Errors -/

def SemanticError.erase (e : SemanticError) : SemanticError :=
  ⟨e.cause, .start, e.declaredAt.map Location.erase⟩

theorem SemanticError.erase_declaredAt (cause : Cause) (l l' d : Location) :
    erase ⟨cause, l', some d.erase⟩ = erase ⟨cause, l, some d⟩ := by
  simp [erase]

def InternalError.erase : InternalError → InternalError
  | expressionAsCondition _ => .expressionAsCondition .start
  | conditionAsValue _ => .conditionAsValue .start
  | e => e

def CompileError.erase : CompileError → CompileError
  | lexical e => lexical ⟨e.cause, .start⟩
  | syntactic e => syntactic { e with location := .start }
  | semantic e => semantic e.erase
  | internal e => internal e.erase

/-- One outcome gives what another gives with its value changed, or both are errors that are
the same without locations. -/
inductive Alike {α β : Type} (φ : α → β) : Except SemanticError α → Except SemanticError β → Prop
  | ok (a : α) : Alike φ (.ok a) (.ok (φ a))
  | error {e e' : SemanticError} (h : e'.erase = e.erase) : Alike φ (.error e) (.error e')

theorem Alike.bind {α β γ δ : Type} {φ : α → β} {ψ : γ → δ} {x : Except SemanticError α}
    {y : Except SemanticError β} {f : α → Except SemanticError γ} {g : β → Except SemanticError δ}
    (h : Alike φ x y) (hfg : ∀ a, Alike ψ (f a) (g (φ a))) : Alike ψ (x >>= f) (y >>= g) := by
  cases h with
  | ok a => exact hfg a
  | error h => exact .error h

/-! ### Lookup -/

namespace FunctionDecl

@[simp] theorem isStandard_erase (f : FunctionDecl) : f.erase.isStandard = f.isStandard := by
  simp [isStandard, erase]

@[simp] theorem sameHeader_erase (f g : FunctionDecl) :
    f.erase.sameHeader g.erase = f.sameHeader g := by
  simp only [sameHeader, erase, map_map]
  rfl

end FunctionDecl

@[simp] theorem Declaration.name_erase (d : Declaration) : d.erase.name = d.name := by
  cases d <;> rfl

@[simp] theorem Declaration.location_erase (d : Declaration) :
    d.erase.location = d.location.erase := by
  cases d <;> rfl

@[simp] theorem Binding.name_erase (b : Binding) : b.erase.name = b.name :=
  b.declaration.name_erase

namespace Environment

variable (env : Environment)

theorem find?_erase (x : String) : env.erase.find? x = (env.find? x).map Binding.erase := by
  simp only [find?, erase, find?_map]
  congr 2
  funext b
  simp

theorem ofScope_erase (scope : Int) :
    env.erase.ofScope scope = (env.ofScope scope).map Binding.erase := by
  simp only [ofScope, erase, filter_map, ← map_reverse]
  rfl

theorem locals_erase (scope : Int) :
    env.erase.locals scope = (env.locals scope).map Variable.erase := by
  rw [locals, locals, ofScope_erase, filterMap_map, map_filterMap]
  congr 1
  funext b
  obtain ⟨d, s⟩ := b
  cases d <;> rfl

theorem parameters_erase (scope : Int) :
    env.erase.parameters scope = (env.parameters scope).map Parameter.erase := by
  rw [parameters, parameters, ofScope_erase, filterMap_map, map_filterMap]
  congr 1
  funext b
  obtain ⟨d, s⟩ := b
  cases d <;> rfl

/-! ### Declaring and leaving -/

theorem conflict?_erase (d d' : Declaration) :
    (conflict? d.erase d'.erase).map SemanticError.erase =
      (conflict? d d').map SemanticError.erase := by
  have hredeclared : SemanticError.erase
        ⟨.redeclared d'.erase.name, d'.erase.location, some d.erase.location⟩ =
      SemanticError.erase ⟨.redeclared d'.name, d'.location, some d.location⟩ := by
    rw [Declaration.name_erase, Declaration.location_erase d, SemanticError.erase_declaredAt]
  cases d with
  | var v => cases d' <;> exact congrArg some hredeclared
  | param q => cases d' <;> exact congrArg some hredeclared
  | fn f =>
    cases d' with
    | var v => exact congrArg some hredeclared
    | param q => exact congrArg some hredeclared
    | fn g =>
      simp only [conflict?, Declaration.erase, sameHeader_erase]
      change Option.map _ (if f.isDefined = false ∧ g.isDefined then _ else _) = _
      split
      · split
        · rfl
        · exact congrArg some (SemanticError.erase_declaredAt ..)
      · exact congrArg some hredeclared

/-- An outcome that is an error if there is a conflict. -/
theorem alike_of_conflict {env env' : Environment} (henv : env' = env.erase)
    {conflict conflict' : Option SemanticError} :
    conflict'.map SemanticError.erase = conflict.map SemanticError.erase →
    Alike erase (match conflict with
      | some e => .error e
      | none => .ok env) (match conflict' with
      | some e => .error e
      | none => .ok env') := by
  intro h
  subst henv
  cases conflict with
  | none =>
    cases conflict' with
    | none => exact .ok env
    | some e' => cases h
  | some e =>
    cases conflict' with
    | none => cases h
    | some e' => exact .error (Option.some.inj h)

/-- What a declaration gives without locations. -/
theorem declare_erase (d : Declaration) :
    Alike erase (env.declare d) (env.erase.declare d.erase) := by
  have hconflict :
      ((do
        let earlier ← env.erase.find? d.erase.name
        if earlier.scope = env.erase.scope then conflict? earlier.declaration d.erase else none) :
          Option SemanticError).map SemanticError.erase =
      ((do
        let earlier ← env.find? d.name
        if earlier.scope = env.scope then conflict? earlier.declaration d else none) :
          Option SemanticError).map SemanticError.erase := by
    rw [find?_erase, Declaration.name_erase]
    cases env.find? d.name with
    | none => rfl
    | some b =>
      change Option.map _ (if b.scope = env.scope then conflict? b.declaration.erase d.erase
        else none) = Option.map _ (if b.scope = env.scope then conflict? b.declaration d else none)
      split
      · exact conflict?_erase b.declaration d
      · rfl
  have henv : (⟨⟨d.erase, env.erase.scope⟩ :: env.erase.bindings, env.erase.scope⟩ : Environment) =
    erase ⟨⟨d, env.scope⟩ :: env.bindings, env.scope⟩ := rfl
  exact alike_of_conflict henv hconflict

theorem innermost_erase : env.erase.innermost = env.innermost.map Binding.erase := by
  simp only [innermost, erase, takeWhile_map]
  rfl

theorem unfulfilled?_erase (functions : List FunctionDecl) (forward : FunctionDecl) :
    (unfulfilled? (functions.map FunctionDecl.erase) forward.erase).map SemanticError.erase =
      (unfulfilled? functions forward).map SemanticError.erase := by
  have hfind : (functions.map FunctionDecl.erase).find?
        (fun f => f.isDefined ∧ f.name = forward.erase.name) =
      (functions.find? fun f => f.isDefined ∧ f.name = forward.name).map FunctionDecl.erase :=
    find?_map ..
  unfold unfulfilled?
  rw [hfind]
  cases functions.find? fun f => f.isDefined ∧ f.name = forward.name with
  | none => rfl
  | some definition =>
    simp only [Option.map_some, FunctionDecl.sameHeader_erase]
    split
    · rfl
    · exact congrArg some (SemanticError.erase_declaredAt ..)

/-- What leaving a scope gives without locations. -/
theorem leave_erase : Alike erase env.leave env.erase.leave := by
  have hfunctions : env.erase.innermost.filterMap Binding.function? =
      (env.innermost.filterMap Binding.function?).map FunctionDecl.erase := by
    rw [innermost_erase, filterMap_map, map_filterMap]
    congr 1
    funext b
    obtain ⟨d, s⟩ := b
    cases d <;> rfl
  have hforwards : ∀ fs : List FunctionDecl,
      ((fs.map FunctionDecl.erase).reverse.filter fun f => f.isDefined = false) =
        (fs.reverse.filter fun f => f.isDefined = false).map FunctionDecl.erase := by
    intro fs
    rw [← map_reverse, filter_map]
    rfl
  have hfulfilled : ∀ fs forwards : List FunctionDecl,
      ((forwards.map FunctionDecl.erase).findSome?
          (unfulfilled? (fs.map FunctionDecl.erase))).map SemanticError.erase =
        (forwards.findSome? (unfulfilled? fs)).map SemanticError.erase := by
    intro fs forwards
    rw [findSome?_map, map_findSome?, map_findSome?]
    congr 1
    funext f
    exact unfulfilled?_erase fs f
  have hfs := hfulfilled (env.innermost.filterMap Binding.function?)
    ((env.innermost.filterMap Binding.function?).reverse.filter fun f => f.isDefined = false)
  rw [← hforwards, ← hfunctions] at hfs
  have henv : (⟨env.erase.bindings.drop env.erase.innermost.length, env.erase.scope - 1⟩ :
      Environment) = erase ⟨env.bindings.drop env.innermost.length, env.scope - 1⟩ := by
    rw [innermost_erase, length_map]
    simp [erase, map_drop]
  exact alike_of_conflict henv hfs

end Environment

/-! ### Standard routines -/

theorem FunctionDecl.erase_standard : ∀ f ∈ standard, f.erase = f := by
  decide

end BlockLang
