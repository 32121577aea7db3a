import BlockLang.Code

/-!
# Basic blocks

A basic block is a run of quads that is entered only at its first quad and left
only after its last. Code is divided into blocks from a given quad on, by cutting
it in front of every leader.
-/

namespace BlockLang

/-- A run of quads, given by its first and its last. -/
structure Block where
  first : Nat
  last : Nat
  deriving DecidableEq

namespace Block

/-- A block as it is written. -/
def text (b : Block) : String := toString b.first ++ "..=" ++ toString b.last

end Block

namespace Code

/-- Whether a quad starts a block of the code from `start` on: the first does, and
every jump target, and every quad after one that may jump. -/
def isLeader (c : Code) (start quad : Nat) : Bool :=
  quad = start || c.isTarget quad || (c.quads[quad - 1]?).any (·.op.isJump)

/-- The blocks after one more quad, which starts a block or extends the last one. -/
def extend (c : Code) (start : Nat) (blocks : List Block) (quad : Nat) : List Block :=
  match blocks.getLast? with
  | some b =>
      if c.isLeader start quad then blocks ++ [⟨quad, quad⟩]
      else blocks.dropLast ++ [{ b with last := quad }]
  | none => [⟨quad, quad⟩]

/-- The blocks of the code from `start` on. -/
def blocksFrom (c : Code) (start : Nat) : List Block :=
  (List.range' start (c.next - start)).foldl (c.extend start) []

end Code

end BlockLang
