import BlockLang.Tree.Table

/-!
# Building trees and tables

A tree is built from the bottom: a node is made of parts that were made before. The same
sequence of steps builds a tree or fills a table. A table keeps a node for good, so it also
notes which nodes were given up.
-/

namespace BlockLang

/-- Making nodes of parts that stand for expressions, statements and declarations, and keeping
notes in `A` on the way. -/
class Building (A : Type) (ε σ δ : outParam Type) where
  expr : ExprNode ε → Location → StateM A ε
  stmt : StmtNode ε σ → Location → StateM A σ
  decl : DeclNode σ δ → StateM A δ
  /-- Whether a declaration has been made as a forward declaration. -/
  isForward : A → δ → Bool
  /-- The notes after everything between two moments has been given up. -/
  giveUp : A → A → A

/-- A definition whose end has been read. -/
structure CompletedDefinition where
  name : String
  /-- The number of declarations in front of the body. -/
  locals : Nat
  deriving DecidableEq

/-- Trees are built with a note of every function. -/
instance : Building (List CompletedDefinition) Expr Stmt Decl where
  expr node l completed := (node.tree l, completed)
  stmt node l completed := (node.tree l, completed)
  decl node completed :=
    match node with
    | .function header locals _ => (node.tree, completed ++ [⟨header.name, locals.length⟩])
    | _ => (node.tree, completed)
  isForward _ d :=
    match d with
    | .forward _ => true
    | _ => false
  giveUp _ completed := completed

/-- The position of a node in a table. -/
inductive NodePosition
  | decl (i : Nat)
  | stmt (i : Nat)
  | expr (i : Nat)
  deriving DecidableEq

/-- A table that is being filled, with the nodes that were given up. -/
structure Draft where
  decls : Array DeclNode := #[]
  stmts : Array (StmtNode × Location) := #[]
  exprs : Array (ExprNode × Location) := #[]
  abandoned : List NodePosition := []

namespace Draft

/-- The positions of a draft that an earlier one lacks. -/
def since (before after : Draft) : List NodePosition :=
  (List.range' before.decls.size (after.decls.size - before.decls.size)).map .decl ++
  (List.range' before.stmts.size (after.stmts.size - before.stmts.size)).map .stmt ++
  (List.range' before.exprs.size (after.exprs.size - before.exprs.size)).map .expr

/-- The table with a declaration for its program. -/
def table (draft : Draft) (root : Nat) : NodeTable :=
  ⟨draft.decls, draft.stmts, draft.exprs, some root⟩

/-- A table is filled by adding each node at the end. -/
instance : Building Draft Nat Nat Nat where
  expr node l draft := (draft.exprs.size, { draft with exprs := draft.exprs.push (node, l) })
  stmt node l draft := (draft.stmts.size, { draft with stmts := draft.stmts.push (node, l) })
  decl node draft := (draft.decls.size, { draft with decls := draft.decls.push node })
  isForward draft i :=
    match draft.decls[i]? with
    | some (.forward _) => true
    | _ => false
  giveUp before after := { after with abandoned := after.abandoned ++ before.since after }

end Draft

end BlockLang
