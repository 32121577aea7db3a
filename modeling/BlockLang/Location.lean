/-!
# Places in a program text

A character of a text stands on a line and in a column, both counted from one.
The routines of the standard library stand nowhere in the text; they share one
location of their own.
-/

namespace BlockLang

/-- A line and a column, counted from one. -/
structure Position where
  line : Nat
  column : Nat
  deriving DecidableEq

namespace Position

/-- The position of the first character of a text. -/
def start : Position := ⟨1, 1⟩

end Position

/-- Where a token, a node or a declaration stands. -/
inductive Location
  /-- A position in the program text. -/
  | source (position : Position)
  /-- The common location of the standard routines. -/
  | standardLibrary
  deriving DecidableEq

namespace Location

/-- The location of the first character of a text, also given to what stands
nowhere. -/
def start : Location := source Position.start

instance : Inhabited Location := ⟨start⟩

/-- A location as error messages show it. -/
def text : Location → String
  | source p => "line " ++ toString p.line ++ ", column " ++ toString p.column
  | standardLibrary => "standard library"

end Location

end BlockLang
