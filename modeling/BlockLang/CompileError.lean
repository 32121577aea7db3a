import BlockLang.Instruction
import BlockLang.Phrase
import BlockLang.SemanticError
import BlockLang.Token.Scan

/-!
# Errors of compilation

A program may fail to be read as tokens, to be read as a tree, or to have a
meaning. Beside these, code or a tree that no program gives rise to is refused
with an internal error.
-/

namespace BlockLang

/-- Why a tree or code that no program gives rise to is refused. -/
inductive InternalError
  | noProgram
  | programNotAFunction
  | missingDeclaration (reference : Nat)
  | missingStatement (reference : Nat)
  | missingExpression (reference : Nat)
  | statementNotACall
  | expressionAsCondition (location : Location)
  | conditionAsValue (location : Location)
  | noCallResult
  | frameTooLarge (function : FunctionLabel)
  | missingQuad (number : Nat)
  | missingOperand
  | unexpectedOperand (operand : Operand) (quad : Quad)
  | undescribedTemporary (number : Nat)
  | undescribedCell (number : Nat)
  | unknownTemporary (number : Nat)
  | notAVariable (name : String)
  | noType (operand : Operand)
  | temporaryOutsideFrame (number : Nat)
  | notInMemory (operand : Operand)
  | unbound (name : String)
  | noSlot (name : String)
  | notAnArgument (name : String)
  | functionAsValue (name : String)
  | notVisible (function : FunctionLabel) (scope : Int)
  | noLowByte (register : Register)
  deriving DecidableEq

namespace InternalError

/-- An internal error in words. -/
def text : InternalError → String
  | noProgram => "the AST has no root"
  | programNotAFunction => "the root is not a function definition"
  | missingDeclaration n => "missing declaration DeclRef(" ++ toString n ++ ")"
  | missingStatement n => "missing statement StmtRef(" ++ toString n ++ ")"
  | missingExpression n => "missing expression ExprRef(" ++ toString n ++ ")"
  | statementNotACall => "call statement without a call"
  | expressionAsCondition l => "expression at " ++ l.text ++ " used as a condition"
  | conditionAsValue l => "condition at " ++ l.text ++ " used as a value"
  | noCallResult => "valued call produced no result"
  | frameTooLarge f => "the frame of " ++ f.text ++ " overflows 32-bit offsets"
  | missingQuad n => "missing quad " ++ toString n
  | missingOperand => "missing quad operand"
  | unexpectedOperand operand quad =>
      "unexpected operand " ++ operand.text ++ " in `" ++ quad.text ++ "`"
  | undescribedTemporary n => "no array info for temporary $" ++ toString n
  | undescribedCell n => "no array info for $" ++ toString n
  | unknownTemporary n => "unknown temporary $" ++ toString n
  | notAVariable x => "`" ++ x ++ "` is not a variable"
  | noType operand => "operand " ++ operand.text ++ " has no value type"
  | temporaryOutsideFrame n => "temporary $" ++ toString n ++ " is not in this frame"
  | notInMemory operand => "operand " ++ operand.text ++ " does not denote memory"
  | unbound x => "`" ++ x ++ "` is not bound"
  | noSlot x => "`" ++ x ++ "` has no frame slot"
  | notAnArgument x => "`" ++ x ++ "` is not an argument"
  | functionAsValue x => "function `" ++ x ++ "` used as a value"
  | notVisible f scope => f.text ++ " is not visible from scope " ++ toString scope
  | noLowByte r => r.text ++ " has no byte register"

end InternalError

/-- Why a program is not compiled. -/
inductive CompileError
  | lexical (e : ScanError)
  | syntactic (e : SyntaxError)
  | semantic (e : SemanticError)
  | internal (e : InternalError)
  deriving DecidableEq

namespace CompileError

/-- An error without the stage that found it. Internal errors have no such text. -/
def detail? : CompileError → Option String
  | lexical e => some e.text
  | syntactic e => some e.text
  | semantic e => some e.text
  | internal _ => none

/-- An error in words. -/
def text : CompileError → String
  | lexical e => "lexical error: " ++ e.text
  | syntactic e => "syntax error: " ++ e.text
  | semantic e => "semantic error: " ++ e.text
  | internal e => "internal compiler error: " ++ e.text

end CompileError

end BlockLang
