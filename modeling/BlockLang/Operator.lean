/-!
# Types and operators

The language has two scalar types, integers of 32 bits and characters of one
byte, and a third type for functions that give no result. Arithmetic and
relational operators keep their meaning from the tree down to the machine, so
they are shared by all stages.
-/

namespace BlockLang

/-- The types of values, and the type of functions without a result. -/
inductive Ty
  | int | char | nothing
  deriving DecidableEq

namespace Ty

/-- The size of a value in bytes. -/
def size : Ty → Nat
  | int => 4
  | char => 1
  | nothing => 0

/-- The spelling of a type. -/
def text : Ty → String
  | int => "int"
  | char => "char"
  | nothing => "nothing"

/-- A type as the text of a tree shows it. -/
def label : Ty → String
  | int => "INT_TYPE"
  | char => "CHAR_TYPE"
  | nothing => "NOTHING_TYPE"

end Ty

/-- The arithmetic operators of two operands. -/
inductive Arith
  | add | sub | mul | div | mod
  deriving DecidableEq

namespace Arith

/-- An operator as quads show it. -/
def text : Arith → String
  | add => "+"
  | sub => "-"
  | mul => "*"
  | div => "/"
  | mod => "%"

/-- An operator as the text of a tree shows it. -/
def label : Arith → String
  | add => "Add"
  | sub => "Sub"
  | mul => "Mul"
  | div => "Div"
  | mod => "Mod"

end Arith

/-- The signs that may stand before an operand. -/
inductive Sign
  | minus | plus
  deriving DecidableEq

namespace Sign

/-- The spelling of a sign. -/
def text : Sign → String
  | minus => "-"
  | plus => "+"

/-- A sign as the text of a tree shows it. -/
def label : Sign → String
  | minus => "Neg"
  | plus => "Pos"

end Sign

/-- The relations between two operands. -/
inductive Relation
  | equal | notEqual | greater | less | greaterEqual | lessEqual
  deriving DecidableEq

namespace Relation

/-- A relation as quads show it. -/
def text : Relation → String
  | equal => "="
  | notEqual => "#"
  | greater => ">"
  | less => "<"
  | greaterEqual => ">="
  | lessEqual => "<="

/-- A relation as the text of a tree shows it. -/
def label : Relation → String
  | equal => "Equal"
  | notEqual => "NotEqual"
  | greater => "Greater"
  | less => "Less"
  | greaterEqual => "GreaterEqual"
  | lessEqual => "LessEqual"

end Relation

/-- The connectives between two conditions. -/
inductive Connective
  | and | or
  deriving DecidableEq

namespace Connective

/-- A connective as the text of a tree shows it. -/
def label : Connective → String
  | and => "And"
  | or => "Or"

end Connective

end BlockLang
