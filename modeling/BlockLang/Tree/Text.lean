import BlockLang.Text.Escape
import BlockLang.Tree

/-!
# The text of a tree

A tree is shown as nested applications, one line for each statement of a block.
Missing statements and expressions are marked; missing declarations are left
out.
-/

namespace BlockLang

/-- Items between commas. -/
def commaSeparated (items : List String) : String := String.intercalate ", " items

/-- The extents of an array, each in brackets. -/
def extentsText (extents : List Nat) : String :=
  String.join (extents.map fun n => "[" ++ toString n ++ "]")

/-- The mark of a missing statement or expression. -/
def missingText : String := "<missing>"

mutual

/-- The text of an expression. -/
def Expr.text : Expr → String
  | .name _ x => "Named(" ++ x ++ ")"
  | .int _ value => toString value.toInt
  | .char _ byte => "'" ++ String.ofList (EscapeStyle.literal.byte byte) ++ "'"
  | .string _ s => "\"" ++ EscapeStyle.literal.text s ++ "\""
  | .index _ base first more =>
      let apply (array subscript : String) := "Index(" ++ array ++ ", " ++ subscript ++ ")"
      (Expr.texts more).foldl apply (apply base.text first.text)
  | .call _ f arguments =>
      "Call(" ++ f ++ ", Args(" ++ commaSeparated (Expr.texts arguments) ++ "))"
  | .group _ inner => "Grouping(" ++ inner.text ++ ")"
  | .arith _ operator left right => operator.label ++ "(" ++ left.text ++ ", " ++ right.text ++ ")"
  | .sign _ s operand => s.label ++ "(" ++ operand.text ++ ")"
  | .compare _ relation left right =>
      relation.label ++ "(" ++ left.text ++ ", " ++ right.text ++ ")"
  | .logic _ connective left right =>
      connective.label ++ "(" ++ left.text ++ ", " ++ right.text ++ ")"
  | .not _ operand => "Not(" ++ operand.text ++ ")"
  | .missing _ => missingText

/-- The texts of expressions, in order. -/
def Expr.texts : List Expr → List String
  | [] => []
  | e :: es => e.text :: Expr.texts es

end

mutual

/-- The text of a statement. -/
def Stmt.text : Stmt → String
  | .empty => "Empty"
  | .assign _ target value => "Assign(" ++ target.text ++ ", " ++ value.text ++ ")"
  | .call e => e.text
  | .block body => "Block \x7b\n" ++ Stmt.lines body ++ "\x7d"
  | .ifThen condition body => "IF(" ++ condition.text ++ ", " ++ body.text ++ ")"
  | .ifElse condition body otherwise =>
      "IF(" ++ condition.text ++ ", " ++ body.text ++ ", " ++ otherwise.text ++ ")"
  | .whileDo condition body => "WHILE(" ++ condition.text ++ ", " ++ body.text ++ ")"
  | .returnValue _ value => "Return(" ++ value.text ++ ")"
  | .returnNothing _ => "Return()"
  | .missing _ => missingText

/-- The lines of the statements of a block. -/
def Stmt.lines : List Stmt → String
  | [] => ""
  | s :: ss => "Stmt(" ++ s.text ++ "),\n" ++ Stmt.lines ss

end

namespace ParameterGroup

/-- The texts of the parameters of a group. -/
def texts (group : ParameterGroup) : List String :=
  group.names.map fun name =>
    "ARG(" ++ (if group.byReference then "REF " else "") ++ group.ty.label ++ ", " ++ name.text ++
      (if group.isOpen then "[]" else "") ++ extentsText group.extents ++ ")"

end ParameterGroup

namespace Header

/-- The text of a header. -/
def text (header : Header) : String :=
  header.name ++ ", " ++ header.result.label ++ ", ARGS(" ++
    commaSeparated (header.groups.flatMap ParameterGroup.texts) ++ ")"

end Header

mutual

/-- The text of a declaration, nothing for a missing one. -/
def Decl.text? : Decl → Option String
  | .function header locals body =>
      some ("FUNCTION(" ++ header.text ++ ", LOCALS(" ++ commaSeparated (Decl.texts locals) ++
        "), " ++ (Stmt.block body).text ++ ")")
  | .forward header => some ("FORWARD(" ++ header.text ++ ")")
  | .vars names ty extents =>
      some (commaSeparated (names.map fun name =>
        "VAR(" ++ ty.label ++ ", " ++ name.text ++ extentsText extents ++ ")"))
  | .missing _ => none

/-- The texts of the declarations that are there, in order. -/
def Decl.texts : List Decl → List String
  | [] => []
  | d :: ds => d.text?.toList ++ Decl.texts ds

end

/-- The text of a program, empty when there is none. -/
def programText (root : Option Decl) : String := (root.bind Decl.text?).getD ""

end BlockLang
