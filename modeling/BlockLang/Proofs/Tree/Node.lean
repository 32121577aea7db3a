import BlockLang.Tree.Building

/-!
# The parts of nodes

The parts of a node stand in the order in which they are made. An expression is a part for a
use: as a condition, as a value, as a place or as a call. The use decides which nodes fit.
-/

namespace BlockLang

/-- What an expression is used for. -/
inductive Use
  | condition
  | value
  | place
  | call
  deriving DecidableEq

/-- A part of a node. -/
inductive Part (ε σ δ : Type)
  | expr (use : Use) (e : ε)
  | stmt (s : σ)
  | decl (d : δ)
  deriving DecidableEq

variable {ε ε' ε'' σ σ' σ'' δ δ' δ'' : Type}

namespace ExprNode

/-- The parts of an expression. What is in parentheses has the use of the whole. -/
def parts (use : Use) : ExprNode ε → List (Part ε σ δ)
  | name _ | int _ | char _ | string _ => []
  | index base subscript => [.expr .place base, .expr .value subscript]
  | call _ arguments => arguments.map (.expr .value)
  | group inner => [.expr use inner]
  | arith _ left right | compare _ left right => [.expr .value left, .expr .value right]
  | sign _ operand => [.expr .value operand]
  | logic _ left right => [.expr .condition left, .expr .condition right]
  | not operand => [.expr .condition operand]

/-- Whether a node fits a use. -/
def Fits (node : ExprNode ε) (use : Use) : Prop :=
  match use, node with
  | .condition, compare .. | .condition, logic .. | .condition, not _ | .condition, group _ => True
  | .condition, _ => False
  | .value, compare .. | .value, logic .. | .value, not _ => False
  | .value, _ => True
  | .place, name _ | .place, string _ | .place, index .. => True
  | .place, _ => False
  | .call, call .. => True
  | .call, _ => False

theorem map_map (node : ExprNode ε) (f : ε → ε') (g : ε' → ε'') :
    (node.map f).map g = node.map (g ∘ f) := by
  cases node <;> simp [map]

/-- A node depends on its parts. -/
theorem map_congr {use : Use} {node : ExprNode ε} {f g : ε → ε'}
    (h : ∀ u e, (.expr u e : Part ε σ δ) ∈ node.parts use → f e = g e) :
    node.map f = node.map g := by
  cases node <;> simp [map] <;> grind [parts, List.mem_map_of_mem]

end ExprNode

namespace StmtNode

def parts : StmtNode ε σ → List (Part ε σ δ)
  | empty | returnNothing => []
  | assign target value => [.expr .place target, .expr .value value]
  | call e => [.expr .call e]
  | block body => body.map .stmt
  | ifThen c body | whileDo c body => [.expr .condition c, .stmt body]
  | ifElse c body otherwise => [.expr .condition c, .stmt body, .stmt otherwise]
  | returnValue value => [.expr .value value]

theorem map_map (node : StmtNode ε σ) (f : ε → ε') (f' : ε' → ε'') (g : σ → σ')
    (g' : σ' → σ'') : (node.map f g).map f' g' = node.map (f' ∘ f) (g' ∘ g) := by
  cases node <;> simp [map]

theorem map_congr {node : StmtNode ε σ} {f f' : ε → ε'} {g g' : σ → σ'}
    (hf : ∀ u e, (.expr u e : Part ε σ δ) ∈ node.parts → f e = f' e)
    (hg : ∀ s, (.stmt s : Part ε σ δ) ∈ node.parts → g s = g' s) :
    node.map f g = node.map f' g' := by
  cases node <;> simp [map] <;> grind [parts, List.mem_map_of_mem]

end StmtNode

/-- Whether all extents of a parameter are positive. -/
def ParameterGroup.Positive (group : ParameterGroup) : Prop := ∀ n ∈ group.extents, 0 < n

/-- Whether all extents in a header are positive. -/
def Header.Positive (header : Header) : Prop := ∀ group ∈ header.groups, group.Positive

namespace DeclNode

def parts : DeclNode σ δ → List (Part ε σ δ)
  | function _ locals body => locals.map .decl ++ body.map .stmt
  | forward _ | vars .. => []

/-- Whether all extents in a declaration are positive. -/
def Positive : DeclNode σ δ → Prop
  | function header _ _ | forward header => header.Positive
  | vars _ _ extents => ∀ n ∈ extents, 0 < n

theorem map_map (node : DeclNode σ δ) (g : σ → σ') (g' : σ' → σ'') (k : δ → δ')
    (k' : δ' → δ'') : (node.map g k).map g' k' = node.map (g' ∘ g) (k' ∘ k) := by
  cases node <;> simp [map]

theorem map_congr {node : DeclNode σ δ} {g g' : σ → σ'} {k k' : δ → δ'}
    (hg : ∀ s, (.stmt s : Part ε σ δ) ∈ node.parts → g s = g' s)
    (hk : ∀ d, (.decl d : Part ε σ δ) ∈ node.parts → k d = k' d) :
    node.map g k = node.map g' k' := by
  cases node with
  | function header locals body =>
    have hlocals : ∀ d ∈ locals, k d = k' d := fun d hd => hk d (by simp [parts, hd])
    have hbody : ∀ s ∈ body, g s = g' s := fun s hs => hg s (by simp [parts, hs])
    simpa [map] using ⟨hlocals, hbody⟩
  | forward => rfl
  | vars => rfl

end DeclNode

end BlockLang
