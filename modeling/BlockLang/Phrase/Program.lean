import BlockLang.Phrase.Expression

/-!
# Reading programs

A program is one function definition. A definition holds further definitions,
forward declarations and variables, and then the statements of its body.
-/

namespace BlockLang

namespace Phrase

variable {A ε σ δ : Type} [Building A ε σ δ]

/-! ### Statements -/

section Statement

variable (statement : Phrase A σ)

/-- The statements before the next `end`. -/
def statementsOf : Phrase A (List σ) :=
  many (fun t => t ≠ .keyword .«end» ∧ t ≠ .eof) statement

/-- A statement in terms of the statements inside it. -/
def statementOf : Phrase A σ := do
  let l ← location
  match ← peek with
  | .symbol .semicolon =>
      skip
      newStmt .empty l
  | .keyword .begin =>
      skip
      let body ← statementsOf statement
      expect (.keyword .«end»)
      newStmt (.block body) l
  | .keyword .«if» =>
      skip
      let c ← condition
      expect (.keyword .«then»)
      let body ← statement
      if ← accept (.keyword .«else») then
        newStmt (.ifElse c body (← statement)) l
      else
        newStmt (.ifThen c body) l
  | .keyword .«while» =>
      skip
      let c ← condition
      expect (.keyword .«do»)
      newStmt (.whileDo c (← statement)) l
  | .keyword .«return» =>
      skip
      if ← accept (.symbol .semicolon) then
        newStmt .returnNothing l
      else
        let value ← expression
        expect (.symbol .semicolon)
        newStmt (.returnValue value) l
  | .name x =>
      if (← peekSecond) = .symbol .leftParen then
        let e ← call
        expect (.symbol .semicolon)
        newStmt (.call e) l
      else
        assignment l (.name x)
  | .string s => assignment l (.string s)
  | _ => fail .statement
where
  /-- An assignment to the place that starts with `base`. -/
  assignment (l : Location) (base : ExprNode ε) : Phrase A σ := do
    let target ← place base
    expect (.symbol .assign)
    let value ← expression
    expect (.symbol .semicolon)
    newStmt (.assign target value) l

end Statement

/-- A statement. -/
def statement : Phrase A σ := fix .statement statementOf

/-- The body of a function with an optional semicolon after it. -/
def body : Phrase A (List σ) := do
  expect (.keyword .begin)
  let statements ← statementsOf statement
  expect (.keyword .«end»)
  let _ ← accept (.symbol .semicolon)
  return statements

/-! ### Declarations -/

/-- Names between commas. -/
def declaredNames : Phrase A (List DeclaredName) :=
  separatedBy (.symbol .comma) do
    let (x, l) ← declaredName
    return ⟨x, l⟩

/-- A scalar type. -/
def scalarType : Phrase A Ty := do
  match ← peek with
  | .keyword .int =>
      skip
      return .int
  | .keyword .char =>
      skip
      return .char
  | _ => fail .scalarType

/-- The type of a result. -/
def resultType : Phrase A Ty := do
  match ← peek with
  | .keyword .int =>
      skip
      return .int
  | .keyword .char =>
      skip
      return .char
  | .keyword .nothing =>
      skip
      return .nothing
  | _ => fail .resultType

/-- A positive integer. -/
def extent : Phrase A Nat := do
  match ← peek with
  | .int value =>
      if 0 < value then
        skip
        return value.toInt.toNat
      else
        throw ⟨.extentNotPositive, ← location⟩
  | _ => fail .extent

/-- The extents of an array, each in brackets. -/
def extents : Phrase A (List Nat) :=
  many (· = .symbol .leftBracket) do
    skip
    let n ← extent
    expect (.symbol .rightBracket)
    return n

/-- Passes an empty pair of brackets if one stands at the front. -/
def openExtent : Phrase A Bool := do
  if (← peek) ≠ .symbol .leftBracket then
    return false
  else if (← peekSecond) = .symbol .rightBracket then
    skip
    skip
    return true
  else
    return false

/-- Variables that share a type. -/
def vars : Phrase A δ := do
  expect (.keyword .var)
  let names ← declaredNames
  expect (.symbol .colon)
  let ty ← scalarType
  let sizes ← extents
  expect (.symbol .semicolon)
  newDecl (.vars names ty sizes)

/-- Parameters that share a way of passing and a type. -/
def parameterGroup : Phrase A ParameterGroup := do
  let byReference ← accept (.keyword .ref)
  let names ← declaredNames
  expect (.symbol .colon)
  let ty ← scalarType
  let isOpen ← openExtent
  return ⟨byReference, names, ty, ← extents, isOpen⟩

/-- The header of a function. -/
def header : Phrase A Header := do
  expect (.keyword .function)
  let (f, l) ← declaredName
  expect (.symbol .leftParen)
  let groups ←
    if (← peek) = .symbol .rightParen then pure []
    else separatedBy (.symbol .semicolon) parameterGroup
  expect (.symbol .rightParen)
  expect (.symbol .colon)
  return ⟨f, l, groups, ← resultType⟩

/-- A definition or a forward declaration in terms of those inside it. -/
def definitionOf (definition : Phrase A δ) : Phrase A δ := do
  let h ← header
  expect (.symbol .semicolon)
  if ← accept (.keyword .forward) then
    expect (.symbol .semicolon)
    newDecl (.forward h)
  else
    let locals ← many (fun t => t = .keyword .function ∨ t = .keyword .var) do
      if (← peek) = .keyword .function then definition else vars
    newDecl (.function h locals (← body))

/-- A definition or a forward declaration. -/
def definition : Phrase A δ := fix .statement definitionOf

/-- A program: one definition and nothing after it. -/
def program : Phrase A δ := do
  let l ← location
  let d ← definition
  if ← isForward d then throw ⟨.programNotDefined, l⟩
  else if (← peek) = .eof then return d
  else fail .endOfInput

end Phrase

namespace Decl

/-- The tree of a list of lexemes, or why there is none, with the definitions
that were completed on the way. -/
def read (lexemes : List Lexeme) : Except SyntaxError Decl × List CompletedDefinition :=
  let (outcome, completed) := Phrase.program (.start lexemes) []
  (outcome.map Prod.fst, completed)

end Decl

namespace Draft

/-- The table of a list of lexemes with the position of the program, or why there is none. -/
def read (lexemes : List Lexeme) : Except SyntaxError Nat × Draft :=
  let (outcome, draft) := Phrase.program (.start lexemes) ({} : Draft)
  (outcome.map Prod.fst, draft)

end Draft

end BlockLang
