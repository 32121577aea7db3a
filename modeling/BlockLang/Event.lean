import BlockLang.Code.Block

/-!
# Events of a compilation

A compilation notes what it does. Each event has a level, and a reader of the
notes chooses how much of them to see.
-/

namespace BlockLang

/-- How much of the notes is shown, from nothing to everything. -/
inductive Level
  | off | error | warn | info | debug | trace
  deriving DecidableEq

namespace Level

/-- The rank of a level; each shows what the lower ones show. -/
def rank : Level → Nat
  | off => 0
  | error => 1
  | warn => 2
  | info => 3
  | debug => 4
  | trace => 5

/-- The name of a level in a note. -/
def text : Level → String
  | off => "OFF"
  | error => "ERROR"
  | warn => "WARN"
  | info => "INFO"
  | debug => "DEBUG"
  | trace => "TRACE"

end Level

/-- What happens during a compilation. -/
inductive Event
  | scanned (tokens : Nat)
  | parsed (function : String) (locals : Nat)
  | entered (scope : Int)
  | left (scope : Int) (removed : Nat)
  | bound (name : String) (scope : Int)
  | pushed (number : Nat) (quad : Quad)
  | began (function : FunctionLabel)
  | lowered (function : FunctionLabel) (first next frame : Nat)
  | divided (first next blocks : Nat)
  | compiled (quads lines : Nat)
  deriving DecidableEq

namespace Event

/-- The level of an event. -/
def level : Event → Level
  | compiled _ _ => .info
  | bound _ _ | pushed _ _ => .trace
  | _ => .debug

/-- An event in words. -/
def text : Event → String
  | scanned tokens => "scanned " ++ toString tokens ++ " tokens"
  | parsed f locals => "parsed function `" ++ f ++ "` with " ++ toString locals ++ " locals"
  | entered scope => "entering scope " ++ toString scope
  | left scope removed =>
      "exiting scope " ++ toString scope ++ ", removed " ++ toString removed ++ " bindings"
  | bound x scope => "binding `" ++ x ++ "` at scope " ++ toString scope
  | pushed n quad => toString n ++ ": " ++ quad.text
  | began f => "translating function " ++ f.text
  | lowered f first next frame =>
      "lowering " ++ f.text ++ ": quads " ++ toString first ++ ".." ++ toString next ++
        ", frame of " ++ toString frame ++ " bytes"
  | divided first next blocks =>
      "partitioned quads " ++ toString first ++ ".." ++ toString next ++ " into " ++
        toString blocks ++ " blocks"
  | compiled quads lines =>
      "compiled " ++ toString quads ++ " quads into " ++ toString lines ++ " lines of assembly"

/-- The note of an event. -/
def record (e : Event) : String := e.level.text ++ " " ++ e.text

end Event

namespace Level

/-- Whether an event is shown at a level. -/
def admits (l : Level) (e : Event) : Bool := e.level.rank ≤ l.rank

end Level

end BlockLang
