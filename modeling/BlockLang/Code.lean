import BlockLang.Quad

/-!
# Code

The code of a program is the sequence of its quads together with the types of
its temporaries, what is known of the temporaries that hold addresses, and the
quads that are jump targets. Quads are appended; the only later change is to fill
in the target of a pending jump.
-/

namespace BlockLang

/-- What is known of a temporary that holds the address of an array cell or row. -/
structure CellInfo where
  element : Ty
  /-- The number of extents that have not been subscripted. -/
  remaining : Nat
  deriving DecidableEq

/-- The quads and temporaries of a program. -/
structure Code where
  quads : Array Quad := #[]
  temps : Array Ty := #[]
  /-- The temporaries that hold addresses, those described last in front. -/
  cells : List (Nat × CellInfo) := []
  /-- The quads that are jump targets. -/
  targets : List Nat := []

namespace Code

/-- The number of the next quad. -/
def next (c : Code) : Nat := c.quads.size

/-- Appends a quad. -/
def push (c : Code) (q : Quad) : Code := { c with quads := c.quads.push q }

/-- Adds a temporary; its number is the number of temporaries before. -/
def newTemp (c : Code) (ty : Ty) : Code := { c with temps := c.temps.push ty }

/-- Describes the address that a temporary holds. -/
def describe (c : Code) (temp : Nat) (info : CellInfo) : Code :=
  { c with cells := (temp, info) :: c.cells }

/-- What is known of the address that a temporary holds. -/
def cell? (c : Code) (temp : Nat) : Option CellInfo := c.cells.lookup temp

/-- Marks a quad as a jump target. -/
def mark (c : Code) (quad : Nat) : Code := { c with targets := quad :: c.targets }

/-- Whether a quad is a jump target. -/
def isTarget (c : Code) (quad : Nat) : Bool := c.targets.contains quad

/-- Lets one quad jump to a target. -/
def patchOne (c : Code) (target quad : Nat) : Code :=
  if quad < c.quads.size then
    { c with quads := c.quads.modify quad fun q => { q with output := some (.target target) } }.mark
      target
  else c

/-- Lets the listed quads jump to a target, as far as they exist. -/
def patch (c : Code) (quads : List Nat) (target : Nat) : Code :=
  quads.foldl (fun c quad => c.patchOne target quad) c

/-- The listing of temporaries and quads, with an empty line in front of each
function. -/
def text (c : Code) : String :=
  let temps := c.temps.toList.zipIdx.map fun (ty, n) =>
    "$" ++ toString n ++ " " ++ ty.text ++ "\n"
  let quads := c.quads.toList.zipIdx.map fun (q, n) =>
    (if q.op = .unit then "\n" else "") ++ toString n ++ ": " ++ q.text ++ "\n"
  String.join (temps ++ quads)

end Code

end BlockLang
