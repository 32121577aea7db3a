import BlockLang.Location
import BlockLang.Operator

/-!
# Trees of programs

A program is a tree of declarations, statements and expressions. Conditions are
expressions too; which of the two is meant depends on where an expression
stands. A tree may have gaps: places whose node is missing and known only by the
number it was referred to.
-/

namespace BlockLang

/-- A name where it is declared. -/
structure DeclaredName where
  text : String
  location : Location
  deriving DecidableEq

/-- Expressions and conditions, each with the location of its first token. -/
inductive Expr
  | name (location : Location) (name : String)
  | int (location : Location) (value : Int32)
  | char (location : Location) (byte : UInt8)
  | string (location : Location) (text : String)
  /-- An array with one subscript or more. -/
  | index (location : Location) (base first : Expr) (more : List Expr)
  | call (location : Location) (function : String) (arguments : List Expr)
  | group (location : Location) (inner : Expr)
  | arith (location : Location) (operator : Arith) (left right : Expr)
  | sign (location : Location) (sign : Sign) (operand : Expr)
  | compare (location : Location) (relation : Relation) (left right : Expr)
  | logic (location : Location) (connective : Connective) (left right : Expr)
  | not (location : Location) (operand : Expr)
  /-- A node that is not there. -/
  | missing (reference : Nat)

namespace Expr

/-- Where an expression stands; a missing one stands at the start. -/
def location : Expr → Location
  | name l _ | int l _ | char l _ | string l _ | index l _ _ _ | call l _ _ | group l _
  | arith l _ _ _ | sign l _ _ | compare l _ _ _ | logic l _ _ _ | not l _ => l
  | missing _ => .start

/-- One more subscript. The subscripts of an array are kept together. -/
def subscript (location : Location) (base subscript : Expr) : Expr :=
  match base with
  | index _ array first more => index location array first (more ++ [subscript])
  | array => index location array subscript []

end Expr

/-- Statements. -/
inductive Stmt
  | empty
  | assign (location : Location) (target value : Expr)
  | call (call : Expr)
  | block (body : List Stmt)
  | ifThen (condition : Expr) (body : Stmt)
  | ifElse (condition : Expr) (body otherwise : Stmt)
  | whileDo (condition : Expr) (body : Stmt)
  | returnValue (location : Location) (value : Expr)
  | returnNothing (location : Location)
  /-- A node that is not there. -/
  | missing (reference : Nat)

/-- Parameters that share a way of passing and a type. -/
structure ParameterGroup where
  byReference : Bool
  names : List DeclaredName
  ty : Ty
  /-- The extents of an array, without a leading one that is left open. -/
  extents : List Nat
  /-- Whether the leading extent is left open. -/
  isOpen : Bool
  deriving DecidableEq

/-- The header of a function. -/
structure Header where
  name : String
  location : Location
  groups : List ParameterGroup
  result : Ty
  deriving DecidableEq

/-- Declarations. -/
inductive Decl
  | function (header : Header) (locals : List Decl) (body : List Stmt)
  | forward (header : Header)
  | vars (names : List DeclaredName) (ty : Ty) (extents : List Nat)
  /-- A node that is not there. -/
  | missing (reference : Nat)

end BlockLang
