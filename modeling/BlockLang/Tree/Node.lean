import BlockLang.Tree

/-!
# Nodes

A node of a tree is given by its parts. What stands for a part is left open: it may be a tree
itself or a position in a table.
-/

namespace BlockLang

variable {ε ε' σ σ' δ δ' : Type}

/-- An expression in terms of its parts. -/
inductive ExprNode (ε : Type := Nat)
  | name (name : String)
  | int (value : Int32)
  | char (byte : UInt8)
  | string (text : String)
  | index (base subscript : ε)
  | call (function : String) (arguments : List ε)
  | group (inner : ε)
  | arith (operator : Arith) (left right : ε)
  | sign (sign : Sign) (operand : ε)
  | compare (relation : Relation) (left right : ε)
  | logic (connective : Connective) (left right : ε)
  | not (operand : ε)
  deriving DecidableEq

namespace ExprNode

/-- The node with other parts. -/
def map (f : ε → ε') : ExprNode ε → ExprNode ε'
  | name x => .name x
  | int value => .int value
  | char byte => .char byte
  | string text => .string text
  | index base subscript => .index (f base) (f subscript)
  | call function arguments => .call function (arguments.map f)
  | group inner => .group (f inner)
  | arith operator left right => .arith operator (f left) (f right)
  | sign s operand => .sign s (f operand)
  | compare relation left right => .compare relation (f left) (f right)
  | logic connective left right => .logic connective (f left) (f right)
  | not operand => .not (f operand)

/-- The tree of a node. -/
def tree (l : Location) : ExprNode Expr → Expr
  | name x => .name l x
  | int value => .int l value
  | char byte => .char l byte
  | string text => .string l text
  | index base subscript => .subscript l base subscript
  | call function arguments => .call l function arguments
  | group inner => .group l inner
  | arith operator left right => .arith l operator left right
  | sign s operand => .sign l s operand
  | compare relation left right => .compare l relation left right
  | logic connective left right => .logic l connective left right
  | not operand => .not l operand

end ExprNode

/-- A statement in terms of its parts. -/
inductive StmtNode (ε : Type := Nat) (σ : Type := Nat)
  | empty
  | assign (target value : ε)
  | call (call : ε)
  | block (body : List σ)
  | ifThen (condition : ε) (body : σ)
  | ifElse (condition : ε) (body otherwise : σ)
  | whileDo (condition : ε) (body : σ)
  | returnValue (value : ε)
  | returnNothing
  deriving DecidableEq

namespace StmtNode

/-- The node with other parts. -/
def map (f : ε → ε') (g : σ → σ') : StmtNode ε σ → StmtNode ε' σ'
  | empty => .empty
  | assign target value => .assign (f target) (f value)
  | call e => .call (f e)
  | block body => .block (body.map g)
  | ifThen c body => .ifThen (f c) (g body)
  | ifElse c body otherwise => .ifElse (f c) (g body) (g otherwise)
  | whileDo c body => .whileDo (f c) (g body)
  | returnValue value => .returnValue (f value)
  | returnNothing => .returnNothing

/-- The tree of a node. -/
def tree (l : Location) : StmtNode Expr Stmt → Stmt
  | empty => .empty
  | assign target value => .assign l target value
  | call e => .call e
  | block body => .block body
  | ifThen c body => .ifThen c body
  | ifElse c body otherwise => .ifElse c body otherwise
  | whileDo c body => .whileDo c body
  | returnValue value => .returnValue l value
  | returnNothing => .returnNothing l

end StmtNode

/-- A declaration in terms of its parts. -/
inductive DeclNode (σ : Type := Nat) (δ : Type := Nat)
  | function (header : Header) (locals : List δ) (body : List σ)
  | forward (header : Header)
  | vars (names : List DeclaredName) (ty : Ty) (extents : List Nat)
  deriving DecidableEq

namespace DeclNode

/-- The node with other parts. -/
def map (g : σ → σ') (k : δ → δ') : DeclNode σ δ → DeclNode σ' δ'
  | function header locals body => .function header (locals.map k) (body.map g)
  | forward header => .forward header
  | vars names ty extents => .vars names ty extents

/-- The tree of a node. -/
def tree : DeclNode Stmt Decl → Decl
  | function header locals body => .function header locals body
  | forward header => .forward header
  | vars names ty extents => .vars names ty extents

end DeclNode

end BlockLang
