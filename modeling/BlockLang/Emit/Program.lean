import BlockLang.Emit.Statement

/-!
# Code of declarations and programs

A function is introduced in the scope that surrounds it and then opens a scope of
its own for its parameters and local declarations. Functions inside it come
before its own quads. When its last quad is there it is lowered, its blocks are
recorded, and its scope is left. What is inside a function is given that function,
so that nothing stands outside of one.

The program is a function without parameters and result. It stands in a scope of
its own, inside that of the standard routines.
-/

namespace BlockLang

namespace ParameterGroup

/-- The parameters of a group. Arrays are passed by reference. -/
def parameters (group : ParameterGroup) : Except SemanticError (List Parameter) :=
  group.names.mapM fun x =>
    if (group.isOpen ∨ group.extents ≠ []) ∧ ¬ group.byReference then
      .error ⟨.arrayByValue x.text, x.location, none⟩
    else
      .ok ⟨⟨x.text, x.location, group.ty, group.extents⟩, group.byReference, group.isOpen⟩

end ParameterGroup

namespace Header

/-- The function that a header declares. -/
def signature (header : Header) (isDefined : Bool) : Except SemanticError FunctionDecl := do
  let groups ← header.groups.mapM ParameterGroup.parameters
  return ⟨header.name, header.location, header.result, groups.flatten, isDefined, 0⟩

end Header

namespace Emit

/-- The function that a header declares. -/
def signature (header : Header) (isDefined : Bool) : Emit FunctionDecl :=
  match header.signature isDefined with
  | .ok f => return f
  | .error e => refuse e

/-- The serial number of a function in the innermost scope. A definition takes that
of its forward declaration; otherwise functions of one name and depth are
counted. -/
def serialOf (name : String) : Emit Nat := do
  let p ← get
  let scope := p.env.scope
  let count : Emit Nat := do
    modify fun p => { p with functions := (name, scope) :: p.functions }
    return p.functions.count (name, scope)
  match p.env.find? name with
  | some ⟨.fn forward, declared⟩ =>
      if declared = scope ∧ forward.isDefined = false then return forward.serial else count
  | _ => count

/-- Declares a function in the innermost scope and gives its label. -/
def introduce (f : FunctionDecl) : Emit FunctionLabel := do
  let serial ← serialOf f.name
  let scope := (← get).env.scope
  declare (.fn { f with serial })
  return ⟨f.name, some scope, serial⟩

/-- Declares a variable of a function and checks that the variables so far can be
addressed. -/
def declareVariable (function : String) (ty : Ty) (extents : List Nat) (x : DeclaredName) :
    Emit Unit := do
  declare (.var ⟨x.text, x.location, ty, extents⟩)
  let env := (← get).env
  if (Frame.layout? (env.locals env.scope) []).isNone then
    refuse ⟨.variableTooLarge x.text function, x.location, none⟩

/-- Opens the scope of a function with its parameters. -/
def openFunction (f : FunctionDecl) (label : FunctionLabel) : Emit Unit := do
  note (.began label)
  enterScope
  f.parameters.forM fun p => declare (.param p)

/-- The body of a function whose scope is open, up to leaving that scope. -/
def closeFunction (f : FunctionDecl) (label : FunctionLabel) (body : List Stmt) : Emit Unit := do
  append .unit (some (.function label)) none none
  patchHere (← statements f.name f.result [] body)
  append .endUnit (some (.function label)) none none
  if f.result ≠ .nothing ∧ ¬ Stmt.someReturnsValue body then
    refuse ⟨.missingReturn f.name, f.location, none⟩
  lowerFunction label
  divideFunction label
  leaveScope

mutual

/-- The code of a declaration inside a function. -/
def declareLocal (owner : String) : Decl → Emit Unit
  | .vars names ty extents => names.forM (declareVariable owner ty extents)
  | .forward header => do
      let f ← signature header false
      let _ ← introduce f
  | .function header locals body => do
      let f ← signature header true
      let label ← introduce f
      openFunction f label
      declareLocals header.name locals
      closeFunction f label body
  | .missing n => malformed (.missingDeclaration n)

/-- The code of the declarations inside a function. -/
def declareLocals (owner : String) : List Decl → Emit Unit
  | [] => return
  | d :: ds => do
      declareLocal owner d
      declareLocals owner ds

end

/-- The code of a program. -/
def program : Option Decl → Emit Unit
  | none => malformed .noProgram
  | some (.function header locals body) => do
      let f ← signature header true
      if f.parameters ≠ [] ∨ f.result ≠ .nothing then
        refuse ⟨.programHeader f.name, f.location, none⟩
      FunctionDecl.standard.forM fun g => declare (.fn g)
      enterScope
      let label ← introduce f
      lower (Lower.entry label)
      openFunction f label
      declareLocals header.name locals
      closeFunction f label body
      leaveScope
  | some _ => malformed .programNotAFunction

end Emit

end BlockLang
