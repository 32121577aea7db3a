import BlockLang.Tree.Node

/-!
# Tables of nodes

A tree can be given as a table: three lists of nodes in which a node names its
parts by their positions. Several nodes may name the same part, and a position
may lie beyond the end of its list; the tree then has a gap there.
-/

namespace BlockLang

/-- Three lists of nodes and the position of the program among the declarations. -/
structure NodeTable where
  decls : Array DeclNode
  stmts : Array (StmtNode × Location)
  exprs : Array (ExprNode × Location)
  root : Option Nat

namespace NodeTable

/-- The tree of the node at a position, followed down to a depth. What lies deeper is
missing. -/
def followed {α β : Type} (nodes : Array α) (missing : Nat → β) (tree : (Nat → β) → α → β) :
    Nat → Nat → β
  | 0, i => missing i
  | depth + 1, i =>
      match nodes[i]? with
      | none => missing i
      | some node => tree (followed nodes missing tree depth) node

variable (table : NodeTable)

/-- The expressions to a depth. -/
def expr : Nat → Nat → Expr :=
  followed table.exprs .missing fun expr node => (node.1.map expr).tree node.2

/-- The statements to a depth. A path through a table without cycles passes each node at
most once, so the number of nodes bounds its depth. -/
def stmt : Nat → Nat → Stmt :=
  followed table.stmts .missing fun stmt node =>
    (node.1.map (table.expr table.exprs.size) stmt).tree node.2

/-- The declarations to a depth. -/
def decl : Nat → Nat → Decl :=
  followed table.decls .missing fun decl node =>
    (node.map (table.stmt table.stmts.size) decl).tree

/-- The tree that a table stands for. -/
def program : Option Decl := table.root.map (table.decl table.decls.size)

end NodeTable

end BlockLang
