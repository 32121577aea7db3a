import BlockLang.SemanticError

/-!
# Scopes

An environment holds the declarations that are visible at a place of a program. Scopes are numbered
by their depth, from below zero with the standard routines. A declaration hides those of its name
in outer scopes until its scope is left. Within a scope a name is declared once, except that a
function may be declared ahead; it has to be defined, with the same header, before the scope is
left.
-/

namespace BlockLang

/-- A declaration with the depth of its scope. -/
structure Binding where
  declaration : Declaration
  scope : Int
  deriving DecidableEq

namespace Binding

/-- The declared name. -/
def name (b : Binding) : String := b.declaration.name

/-- The function that is declared, if one is. -/
def function? (b : Binding) : Option FunctionDecl :=
  match b.declaration with
  | .fn f => some f
  | _ => none

end Binding

/-- The visible declarations and the depth of the innermost scope. -/
structure Environment where
  /-- The declarations, the latest in front. -/
  bindings : List Binding := []
  scope : Int := -1

namespace Environment

variable (env : Environment)

/-- The declaration that a name stands for. -/
def find? (name : String) : Option Binding := env.bindings.find? fun b => b.name = name

/-- The bindings of a scope in the order of their declaration. -/
def ofScope (scope : Int) : List Binding :=
  (env.bindings.filter fun b => b.scope = scope).reverse

/-- The variables of a scope in the order of their declaration. -/
def locals (scope : Int) : List Variable :=
  (env.ofScope scope).filterMap fun b =>
    match b.declaration with
    | .var v => some v
    | _ => none

/-- The parameters of a scope in the order of their declaration. -/
def parameters (scope : Int) : List Parameter :=
  (env.ofScope scope).filterMap fun b =>
    match b.declaration with
    | .param p => some p
    | _ => none

/-- Opens a scope. -/
def enter : Environment := { env with scope := env.scope + 1 }

/-- The conflict of a new declaration with an earlier one of its name and scope. A
definition does not conflict with a forward declaration of the same header. -/
def conflict? (earlier later : Declaration) : Option SemanticError :=
  match earlier, later with
  | .fn forward, .fn definition =>
      if forward.isDefined = false ∧ definition.isDefined then
        if definition.sameHeader forward then none
        else some ⟨.headerDiffers definition.name, definition.location, some forward.location⟩
      else some ⟨.redeclared later.name, later.location, some earlier.location⟩
  | _, _ => some ⟨.redeclared later.name, later.location, some earlier.location⟩

/-- Declares a name in the innermost scope. -/
def declare (d : Declaration) : Except SemanticError Environment :=
  let conflict := do
    let earlier ← env.find? d.name
    if earlier.scope = env.scope then conflict? earlier.declaration d else none
  match conflict with
  | some e => .error e
  | none => .ok { env with bindings := ⟨d, env.scope⟩ :: env.bindings }

/-- Declares names one after the other. At the first conflict the earlier ones
stay declared. -/
def declareAll : List Declaration → Environment → Environment × Option SemanticError
  | [], env => (env, none)
  | d :: ds, env =>
      match env.declare d with
      | .ok env => declareAll ds env
      | .error e => (env, some e)

/-- The bindings of the innermost scope, the latest in front. -/
def innermost : List Binding := env.bindings.takeWhile fun b => b.scope = env.scope

/-- What is wrong with a forward declaration among the functions of its scope, the
latest in front. -/
def unfulfilled? (functions : List FunctionDecl) (forward : FunctionDecl) :
    Option SemanticError :=
  match functions.find? fun f => f.isDefined ∧ f.name = forward.name with
  | none => some ⟨.neverDefined forward.name, forward.location, none⟩
  | some definition =>
      if definition.sameHeader forward then none
      else some ⟨.headerDiffers forward.name, definition.location, some forward.location⟩

/-- Leaves the innermost scope. -/
def leave : Except SemanticError Environment :=
  let functions := env.innermost.filterMap Binding.function?
  let forwards := functions.reverse.filter fun f => f.isDefined = false
  match forwards.findSome? (unfulfilled? functions) with
  | some e => .error e
  | none => .ok ⟨env.bindings.drop env.innermost.length, env.scope - 1⟩

end Environment

end BlockLang
