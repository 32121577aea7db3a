import BlockLang.Location
import BlockLang.Operator

/-!
# Declarations

A name stands for a variable, a parameter or a function. Variables and
parameters may be arrays, with an extent for each dimension; a parameter may
leave its leading extent open.
-/

namespace BlockLang

/-- One more than the largest unsigned 32-bit number. -/
def wordLimit : Nat := 0x100000000

/-- One more than the largest signed 32-bit number, which bounds every offset. -/
def offsetLimit : Nat := 0x80000000

/-- A type with extents, where zero stands for an extent left open. -/
structure Shape where
  ty : Ty
  extents : List Nat
  deriving DecidableEq

namespace Shape

/-- A shape as messages show it. -/
def text (s : Shape) : String :=
  s.ty.text ++ String.join (s.extents.map fun n =>
    if n = 0 then "[]" else "[" ++ toString n ++ "]")

end Shape

/-- A variable. -/
structure Variable where
  name : String
  location : Location
  ty : Ty
  /-- The declared extents, none for a scalar. -/
  extents : List Nat
  deriving DecidableEq

namespace Variable

/-- The number of bytes of a variable. There is none if an extent or a product
on the way is too large for 32 bits, or the whole for an offset. -/
def size? (v : Variable) : Option Nat := do
  let size ← v.extents.foldlM
    (fun size n => if n < wordLimit ∧ size * n < wordLimit then some (size * n) else none) v.ty.size
  if size < offsetLimit then some size else none

end Variable

/-- A parameter of a function. -/
structure Parameter extends Variable where
  byReference : Bool
  /-- Whether a leading extent is left open. It is not among the extents. -/
  isOpen : Bool
  deriving DecidableEq

namespace Parameter

/-- The shape of a parameter, with zero for an extent left open. -/
def shape (p : Parameter) : Shape := ⟨p.ty, if p.isOpen then 0 :: p.extents else p.extents⟩

/-- What two parameters have to share for their functions to agree: all but the
name and the location. -/
def kind (p : Parameter) : Ty × List Nat × Bool × Bool :=
  (p.ty, p.extents, p.byReference, p.isOpen)

end Parameter

/-- A function, declared ahead or defined. -/
structure FunctionDecl where
  name : String
  location : Location
  result : Ty
  parameters : List Parameter
  isDefined : Bool
  /-- Tells apart functions of one name and depth in different functions. -/
  serial : Nat
  deriving DecidableEq

namespace FunctionDecl

/-- Whether two functions have the same result and the same kinds of parameters. -/
def sameHeader (f g : FunctionDecl) : Bool :=
  f.result = g.result ∧ f.parameters.map Parameter.kind = g.parameters.map Parameter.kind

/-- Whether a function is a routine of the standard library. -/
def isStandard (f : FunctionDecl) : Bool := f.location = .standardLibrary

/-- The parameters of a standard routine: scalars by value and strings by
reference. -/
private def scalar (name : String) (ty : Ty) : Parameter :=
  ⟨⟨name, .standardLibrary, ty, []⟩, false, false⟩

private def text (name : String) : Parameter := ⟨⟨name, .standardLibrary, .char, []⟩, true, true⟩

private def routine (name : String) (parameters : List Parameter) (result : Ty) : FunctionDecl :=
  ⟨name, .standardLibrary, result, parameters, true, 0⟩

/-- The standard routines. -/
def standard : List FunctionDecl :=
  [routine "puti" [scalar "n" .int] .nothing,
    routine "putc" [scalar "c" .char] .nothing,
    routine "puts" [text "s"] .nothing,
    routine "geti" [] .int,
    routine "getc" [] .char,
    routine "gets" [scalar "n" .int, text "s"] .nothing,
    routine "abs" [scalar "n" .int] .int,
    routine "ord" [scalar "c" .char] .int,
    routine "chr" [scalar "n" .int] .char,
    routine "strlen" [text "s"] .int,
    routine "strcmp" [text "s1", text "s2"] .int,
    routine "strcpy" [text "trg", text "src"] .nothing,
    routine "strcat" [text "trg", text "src"] .nothing]

end FunctionDecl

/-- What a name stands for. -/
inductive Declaration
  | var (v : Variable)
  | param (p : Parameter)
  | fn (f : FunctionDecl)
  deriving DecidableEq

namespace Declaration

/-- The declared name. -/
def name : Declaration → String
  | var v => v.name
  | param p => p.name
  | fn f => f.name

/-- Where the name is declared. -/
def location : Declaration → Location
  | var v => v.location
  | param p => p.location
  | fn f => f.location

end Declaration

end BlockLang
