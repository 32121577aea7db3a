import BlockLang.Phrase

/-!
# Reading expressions and conditions

An expression is read by climbing: after what it starts with, an operator is taken
as long as it binds more tightly than what stands before, and its right operand is
an expression in which only tighter operators are taken. Conditions are
disjunctions of conjunctions of negations, and at the bottom of a condition stand
comparisons. All operators join from left to right.

A parenthesis in a condition opens either a condition or the first operand of a
comparison. It is read as a condition first; that reading stands if the closing
parenthesis follows and no operator after it.
-/

namespace BlockLang

/-- How tightly an operator binds. -/
inductive Precedence
  | none
  | term
  | factor
  | unary
  deriving DecidableEq

namespace Precedence

def level : Precedence → Nat
  | none => 0
  | term => 1
  | factor => 2
  | unary => 3

instance : LT Precedence := ⟨fun p q => p.level < q.level⟩

instance (p q : Precedence) : Decidable (p < q) := inferInstanceAs (Decidable (p.level < q.level))

end Precedence

namespace Token

/-- The operator between two operands. -/
def arith? : Token → Option Arith
  | symbol .plus => some .add
  | symbol .minus => some .sub
  | symbol .star => some .mul
  | keyword .div => some .div
  | keyword .mod => some .mod
  | _ => none

/-- The sign in front of an operand. -/
def sign? : Token → Option Sign
  | symbol .minus => some .minus
  | symbol .plus => some .plus
  | _ => none

/-- How tightly a token binds after an operand. -/
def precedence : Token → Precedence
  | symbol .plus => .term
  | symbol .minus => .term
  | symbol .star => .factor
  | keyword .div => .factor
  | keyword .mod => .factor
  | _ => .none

/-- The connective of a conjunction. -/
def conjunctive? : Token → Option Connective
  | keyword .and => some .and
  | _ => none

/-- The connective of a disjunction. -/
def disjunctive? : Token → Option Connective
  | keyword .or => some .or
  | _ => none

/-- The bracket in front of a subscript. -/
def subscripting? : Token → Option Unit
  | symbol .leftBracket => some ()
  | _ => none

/-- The relation of a comparison. -/
def relation? : Token → Option Relation
  | symbol .equal => some .equal
  | symbol .notEqual => some .notEqual
  | symbol .greater => some .greater
  | symbol .less => some .less
  | symbol .greaterEqual => some .greaterEqual
  | symbol .lessEqual => some .lessEqual
  | _ => none

/-- Whether a token may follow an operand inside a comparison. -/
def isOperator (t : Token) : Bool :=
  t.arith?.isSome || t.relation?.isSome

end Token

namespace Phrase

variable {A ε σ δ : Type} [Building A ε σ δ]

/-! ### Expressions -/

section Inner

variable (expression : Phrase A ε)

/-- The arguments of a call, up to the closing parenthesis. -/
def arguments : Phrase A (List ε) := do
  expect (.symbol .leftParen)
  let items ←
    if (← peek) = .symbol .rightParen then pure []
    else separatedBy (.symbol .comma) expression
  expect (.symbol .rightParen)
  return items

/-- A call of a function. -/
def callOf : Phrase A ε := do
  let (f, l) ← declaredName
  newExpr (.call f (← arguments expression)) l

/-- A subscript after its opening bracket. -/
def subscript : Phrase A ε := do
  let e ← expression
  expect (.symbol .rightBracket)
  return e

/-- A name or a string with its subscripts. -/
def placeOf (base : ExprNode ε) : Phrase A ε := do
  let l ← location
  skip
  chain (subscript expression) Token.subscripting? (fun _ a e => newExpr (.index a e) l)
    (← newExpr base l)

end Inner

section Climbing

variable (inner : Precedence → Phrase A ε)

/-- An expression in parentheses. -/
def grouping : Phrase A ε := do
  let l ← location
  expect (.symbol .leftParen)
  let e ← inner .none
  expect (.symbol .rightParen)
  newExpr (.group e) l

/-- An operand with a sign. -/
def signed : Phrase A ε := do
  let l ← location
  let x ← advance
  match x.token.sign? with
  | some sign => newExpr (.sign sign (← inner .unary)) l
  | none => refuse .sign x

/-- What an expression starts with: a literal, a place, a call, a signed operand or an
expression in parentheses. -/
def leading : Phrase A ε := do
  let l ← location
  match ← peek with
  | .symbol .leftParen => grouping inner
  | .symbol .minus => signed inner
  | .symbol .plus => signed inner
  | .int value =>
      skip
      newExpr (.int value) l
  | .char byte =>
      skip
      newExpr (.char byte) l
  | .name x =>
      if (← peekSecond) = .symbol .leftParen then callOf (inner .none)
      else placeOf (inner .none) (.name x)
  | .string s => placeOf (inner .none) (.string s)
  | _ => fail .expression

/-- An operator and its right operand, joined to the left one. -/
def binary (l : Location) (left : ε) : Phrase A ε := do
  let x ← advance
  match x.token.arith? with
  | some o => newExpr (.arith o left (← inner x.token.precedence)) l
  | none => refuse .arithmeticOperator x

/-- Goes on after an operand while an operator binds more tightly. -/
def climb (p : Precedence) (l : Location) (left : ε) (lexemes : Lexemes) : Parse A (ε × Lexemes) :=
  if p < (lexemes.nth 0).precedence then do
    let (joined, rest) ← binary inner l left lexemes
    if rest.count < lexemes.count then climb p l joined rest else fail .expression rest
  else
    return (left, lexemes)
termination_by lexemes.count

/-- An expression of a precedence in terms of those inside it. -/
def byPrecedenceOf (p : Precedence) : Phrase A ε := do
  let l ← location
  climb inner p l (← leading inner)

end Climbing

/-- An expression whose operators bind more tightly than a precedence says. It calls
itself only on fewer lexemes. -/
def byPrecedence (p : Precedence) (lexemes : Lexemes) : Parse A (ε × Lexemes) :=
  byPrecedenceOf (fun q rest =>
    if rest.count < lexemes.count then byPrecedence q rest else fail .expression rest) p lexemes
termination_by lexemes.count

/-- An expression. -/
def expression : Phrase A ε := byPrecedence .none

/-- A call of a function. -/
def call : Phrase A ε := callOf expression

/-- What can be assigned to: a name or a string with subscripts. -/
def place (base : ExprNode ε) : Phrase A ε := placeOf expression base

/-! ### Conditions -/

/-- Two expressions with a relation between them. -/
def comparison : Phrase A ε := do
  let l ← location
  let left ← expression
  match (← peek).relation? with
  | some relation =>
      skip
      newExpr (.compare relation left (← expression)) l
  | none => fail .relation

section Negation

variable (negation : Phrase A ε)

/-- Negations joined by `and`. -/
def conjunction : Phrase A ε := do
  let l ← location
  chain negation Token.conjunctive? (fun c a b => newExpr (.logic c a b) l) (← negation)

/-- Conjunctions joined by `or`. -/
def disjunction : Phrase A ε := do
  let l ← location
  chain (conjunction negation) Token.disjunctive? (fun c a b => newExpr (.logic c a b) l)
    (← conjunction negation)

/-- A condition in parentheses that no operator follows. -/
def groupedCondition : Phrase A (Option ε) := do
  expect (.symbol .leftParen)
  let inner ← disjunction negation
  expect (.symbol .rightParen)
  return if (← peek).isOperator then none else some inner

/-- A negation in terms of the negations inside it. -/
def negationOf : Phrase A ε := do
  let l ← location
  match ← peek with
  | .keyword .not =>
      skip
      newExpr (.not (← negation)) l
  | .symbol .leftParen =>
      match ← attempt (groupedCondition negation) with
      | some inner => newExpr (.group inner) l
      | none => comparison
  | _ => comparison

end Negation

/-- A comparison, a negated condition or a condition in parentheses. -/
def negation : Phrase A ε := fix .expression negationOf

/-- A condition. -/
def condition : Phrase A ε := disjunction negation

end Phrase

end BlockLang
