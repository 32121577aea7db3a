import BlockLang.Declaration
import BlockLang.Quad

/-!
# Semantic errors

A program that reads well may still declare, use or combine its names in a way
that has no meaning. Each such error has a cause, the location of the offence
and, where another declaration is involved, the location of that declaration.
-/

namespace BlockLang

/-- What is wrong with a program that reads well. -/
inductive SemanticError.Cause
  /-- A name is declared twice in a scope. -/
  | redeclared (name : String)
  /-- A definition and its forward declaration differ. -/
  | headerDiffers (function : String)
  /-- A forward declaration has no definition in its scope. -/
  | neverDefined (function : String)
  | arrayByValue (parameter : String)
  | programHeader (function : String)
  | missingReturn (function : String)
  | variableTooLarge (name function : String)
  | assignment (value target : Shape)
  | unexpectedResult (function : String)
  | missingResult (function : String) (result : Ty)
  | wrongResult (function : String) (result : Ty) (found : Shape)
  | comparison (left right : Shape)
  | arithmetic (left right : Shape)
  | sign (sign : Sign) (found : Shape)
  | functionAsVariable (function : String)
  | undeclaredName (name : String)
  | notAnArray (operand : Operand)
  | tooManySubscripts (operand : Operand) (extents : Nat)
  | subscript (found : Shape)
  | rowTooLarge
  | notAFunction (name : String)
  | undeclaredFunction (name : String)
  | resultDiscarded (function : String)
  | noResult (function : String)
  | argumentCount (function : String) (expected found : Nat)
  | argumentType (parameter function : String) (expected found : Shape)
  | argumentNotAssignable (parameter function : String)
  deriving DecidableEq

/-- What is wrong with a program that reads well, and where. -/
structure SemanticError where
  cause : SemanticError.Cause
  location : Location
  /-- The declaration that the offence conflicts with. -/
  declaredAt : Option Location := none
  deriving DecidableEq

namespace SemanticError

/-- The cause in words. -/
def Cause.text : Cause → String
  | redeclared x => "Redeclaration of `" ++ x ++ "` in the same scope"
  | headerDiffers f =>
      "Definition of function `" ++ f ++ "` has a different header than its declaration"
  | neverDefined f => "Function `" ++ f ++ "` is declared but not defined in the same scope"
  | arrayByValue x => "Array parameter `" ++ x ++ "` must be passed by reference"
  | programHeader f => "Program function `" ++ f ++ "` must take no arguments and return nothing"
  | missingReturn f => "Missing return statement in function `" ++ f ++ "`"
  | variableTooLarge x f =>
      "Variable `" ++ x ++ "` does not fit in the stack frame of `" ++ f ++ "`"
  | assignment value target =>
      "Type mismatch in assignment, cannot assign `" ++ value.text ++ "` to `" ++ target.text ++ "`"
  | unexpectedResult f => "Function `" ++ f ++ "` returns nothing but a value is returned"
  | missingResult f result =>
      "Function `" ++ f ++ "` must return a value of type `" ++ result.text ++ "`"
  | wrongResult f result found =>
      "Type mismatch in return, function `" ++ f ++ "` returns `" ++ result.text ++
        "` but found `" ++ found.text ++ "`"
  | comparison left right =>
      "Type mismatch in comparison between `" ++ left.text ++ "` and `" ++ right.text ++ "`"
  | arithmetic left right =>
      "Arithmetic operands must be `int`, found `" ++ left.text ++ "` and `" ++ right.text ++ "`"
  | sign s found => "Unary `" ++ s.text ++ "` expects an `int`, found `" ++ found.text ++ "`"
  | functionAsVariable f => "Function `" ++ f ++ "` used as a variable"
  | undeclaredName x => "Undeclared identifier `" ++ x ++ "`"
  | notAnArray operand => "Cannot index `" ++ operand.text ++ "`, it is not an array"
  | tooManySubscripts operand extents =>
      "Too many indices for `" ++ operand.text ++ "`, it has " ++ toString extents ++ " dimensions"
  | subscript found => "Array index must be an `int`, found `" ++ found.text ++ "`"
  | rowTooLarge => "Array row does not fit in an `int` offset"
  | notAFunction x => "`" ++ x ++ "` is not a function"
  | undeclaredFunction x => "Undeclared function `" ++ x ++ "`"
  | resultDiscarded f =>
      "Result of `" ++ f ++
        "` is discarded, only `nothing` functions can be called as statements"
  | noResult f => "Function `" ++ f ++ "` returns nothing and cannot be used in an expression"
  | argumentCount f expected found =>
      "Function `" ++ f ++ "` expects " ++ toString expected ++ " arguments, found " ++
        toString found
  | argumentType x f expected found =>
      "Type mismatch for argument `" ++ x ++ "` of `" ++ f ++ "`, expected `" ++ expected.text ++
        "` but found `" ++ found.text ++ "`"
  | argumentNotAssignable x f =>
      "Argument `" ++ x ++ "` of `" ++ f ++ "` is passed by reference and must be an lvalue"

/-- The cause and the locations in words. -/
def text (e : SemanticError) : String :=
  let declared :=
    match e.declaredAt with
    | some l => " (declared at " ++ l.text ++ ")"
    | none => ""
  e.cause.text ++ " at " ++ e.location.text ++ declared ++ "."

end SemanticError

end BlockLang
