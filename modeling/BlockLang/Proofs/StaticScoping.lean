import BlockLang.Proofs.Linking

/-!
# Static scoping

A name in the body of a function is translated and lowered as the tree binds it: with the
declaration in the innermost function around the use that binds it, and with as many links to
follow as there are functions in between. A program whose uses are not bound in this way is not
accepted.
-/

namespace BlockLang

open Emit List Stmt

/-- A function of a program is one of the tree, and the names in its body are used as the
tree binds them. -/
structure CompiledFunction.StaticallyScoped (tree : Decl) (all : List CompiledFunction)
    (r : CompiledFunction) (d : Definition) : Prop where
  path : r.path = d.path
  subtree : tree.subtree? r.path = some (.function d.header r.locals d.body)
  /-- A variable is reached by as many links as there are functions in between. -/
  named : ∀ x ∈ namedAll d.body, ∃ hops bound b,
    binding? tree.name x d.levels = some (hops, bound) ∧ bound.IsPlace ∧
      r.site.env.find? x = some b ∧ bound.Introduces tree all x b ∧ r.site.hops b.scope = hops
  /-- The calls of the body are those of its quads, in the same order, and a call finds the
  frame in which the called function was declared by as many links. -/
  called : List.Forall₂ (fun x label => ∃ hops bound f scope,
    binding? tree.name x d.levels = some (hops, bound) ∧ ¬ bound.IsPlace ∧
      r.site.env.find? x = some ⟨.fn f, scope⟩ ∧ bound.Introduces tree all x ⟨.fn f, scope⟩ ∧
      label = calleeLabel f scope ∧
      ∀ depth, label.depth = some depth → r.site.hops depth = hops)
    (calledAll d.body) ((r.closed.code.quads.toList.drop r.first).filterMap Quad.callee?)

namespace Bound

variable {tree : Decl} {all : List CompiledFunction} {x : String} {bound : Bound} {b : Binding}

theorem Introduces.isPlace (h : bound.Introduces tree all x b)
    (hb : ∀ f, b.declaration ≠ .fn f) : bound.IsPlace := by
  cases h with
  | parameter => trivial
  | var => trivial
  | function => exact absurd rfl (hb _)
  | routine => exact absurd rfl (hb _)

theorem Introduces.not_isPlace {f : FunctionDecl} {scope : Int}
    (h : bound.Introduces tree all x ⟨.fn f, scope⟩) : ¬ bound.IsPlace := by
  cases h with
  | function => exact id
  | routine => exact id

end Bound

/-- The names that a body uses as variables stand for variables or parameters. -/
theorem CompiledFunction.Closes.holds_named {r : CompiledFunction} {p : Progress}
    (h : r.Closes p) {x : String} (hx : x ∈ namedAll r.body) : r.opened.env.Holds x := by
  obtain ⟨e, he, hname⟩ := mem_filterMap.mp hx
  have htypes := statements_types _ _ r.body (.refl 0 _) h.statements
  obtain ⟨p1, c, p2, henv, hrun, -⟩ := htypes.visited e he
  cases e with
  | name l y =>
    cases hname
    rw [expression] at hrun
    obtain ⟨-, b, hb, hplace⟩ := named_ok hrun
    rw [henv] at hb
    refine ⟨b, hb, fun f hf => ?_⟩
    rcases hplace with ⟨v, hv, -⟩ | ⟨q, hq, -⟩
    · cases hf.symm.trans hv
    · cases hf.symm.trans hq
  | _ => cases hname

namespace Compiles

variable {tree : Decl} {p : Progress} {rs : List CompiledFunction}

/-- The names in the body of a function are used as the tree binds them. -/
theorem scopes (h : Compiles tree p rs) {r : CompiledFunction} (hr : r ∈ rs) {d : Definition}
    (hreal : Realizes tree rs r d) : r.StaticallyScoped tree rs d := by
  obtain ⟨p', hcloses⟩ := h.closes r hr
  refine ⟨hreal.path.symm, ?_, fun x hx => ?_, ?_⟩
  · rw [hreal.subtree, hreal.header, hreal.body]
    rfl
  · rw [hreal.body] at hx
    obtain ⟨b, hb, hplace⟩ := hcloses.holds_named hx
    obtain ⟨hops, bound, hfound, hscope, hintroduces⟩ := hreal.visible.exists_binding hb
    refine ⟨hops, bound, b, hfound, hintroduces.isPlace hplace, hb, hintroduces, ?_⟩
    change r.opened.env.scope - b.scope = hops
    omega
  · rw [hreal.body]
    refine hcloses.callees_quads.imp fun x label hlabel => ?_
    obtain ⟨f, scope, hb, rfl⟩ := Environment.find?_of_callee? hlabel
    obtain ⟨hops, bound, hfound, hscope, hintroduces⟩ := hreal.visible.exists_binding hb
    refine ⟨hops, bound, f, scope, hfound, hintroduces.not_isPlace, hb, hintroduces, rfl, ?_⟩
    intro depth hdepth
    obtain rfl := eq_of_depth_calleeLabel hdepth
    have hscope : depth + (hops : Int) = r.opened.env.scope := hscope
    change r.opened.env.scope - depth = hops
    omega

theorem staticallyScoped (h : Compiles tree p rs) (htext : tree.InText) :
    List.Forall₂ (CompiledFunction.StaticallyScoped tree rs) rs (tree.definitions [] []) := by
  rw [forall₂_iff_zip]
  refine ⟨(h.realizes htext).length_eq, fun hmem => ?_⟩
  exact h.scopes (of_mem_zip hmem).1 ((forall₂_iff_zip.mp (h.realizes htext)).2 hmem)

/-- A name that is bound to variables stands for one of them. -/
theorem exists_variable (h : Compiles tree p rs) (htext : tree.InText) {d : Definition}
    (hd : d ∈ tree.definitions [] []) {x : String} (hx : x ∈ namedAll d.body) {hops : Nat}
    {path : List Nat} (hbinding : binding? tree.name x d.levels = some (hops, .var path)) :
    ∃ r ∈ rs, d.body = r.body ∧ ∃ names ty extents, ∃ y ∈ names, ∃ scope,
      tree.subtree? path = some (.vars names ty extents) ∧
      r.opened.env.find? x = some ⟨.var ⟨y.text, y.location, ty, extents⟩, scope⟩ ∧
      r.opened.env.scope - scope = hops := by
  obtain ⟨r, hr, hreal⟩ := exists_of_forall₂ (h.realizes htext) hd
  obtain ⟨hops', bound, b, hfound, -, hfind, hintroduces, hdepth⟩ :=
    (h.scopes hr hreal).named x hx
  cases hbinding.symm.trans hfound
  cases hintroduces with
  | var hat hy => exact ⟨r, hr, hreal.body, _, _, _, _, hy, _, hat, hfind, hdepth⟩

end Compiles

/-- A name is used as a variable without being bound to one, or called without being bound
to a function. -/
def Definition.Misuses (program : String) (d : Definition) : Prop :=
  (∃ x ∈ namedAll d.body, ∀ hops bound,
    binding? program x d.levels = some (hops, bound) → ¬ bound.IsPlace) ∨
  ∃ x ∈ calledAll d.body, ∀ hops bound,
    binding? program x d.levels = some (hops, bound) → bound.IsPlace

/-- A function that is scoped misuses no name. -/
theorem CompiledFunction.StaticallyScoped.not_misuses {tree : Decl} {all : List CompiledFunction}
    {r : CompiledFunction} {d : Definition} (h : r.StaticallyScoped tree all d) :
    ¬ d.Misuses tree.name := by
  rintro (⟨x, hx, hbound⟩ | ⟨x, hx, hbound⟩)
  · obtain ⟨hops, bound, b, hfound, hplace, -⟩ := h.named x hx
    exact hbound hops bound hfound hplace
  · obtain ⟨i, hi, rfl⟩ := getElem_of_mem hx
    obtain ⟨hops, bound, f, scope, hfound, hplace, -⟩ :=
      (forall₂_iff_get.mp h.called).2 i hi (h.called.length_eq ▸ hi)
    exact hplace (hbound hops bound hfound)

/-- A text is accepted only if its names are used as the tree binds them, and then they are
translated and lowered so. -/
theorem static_scoping (source : String) :
    (∀ c, (compile source).1 = .ok c → ∃ lexemes tree p rs,
      Token.scan source = .ok lexemes ∧ (Decl.read lexemes).1 = .ok tree ∧ Compiles tree p rs ∧
        c = p.compilation tree ∧
        List.Forall₂ (CompiledFunction.StaticallyScoped tree rs) rs (tree.definitions [] [])) ∧
    ∀ lexemes tree, Token.scan source = .ok lexemes → (Decl.read lexemes).1 = .ok tree →
      (∃ d ∈ tree.definitions [] [], d.Misuses tree.name) → ∃ e, (compile source).1 = .error e := by
  have haccepted : ∀ c, (compile source).1 = .ok c → ∃ lexemes tree p rs,
      Token.scan source = .ok lexemes ∧ (Decl.read lexemes).1 = .ok tree ∧ Compiles tree p rs ∧
        c = p.compilation tree ∧
        List.Forall₂ (CompiledFunction.StaticallyScoped tree rs) rs (tree.definitions [] []) := by
    intro c hc
    obtain ⟨lexemes, tree, p, rs, hscan, hread, hcompiles, rfl⟩ := compiles_of_compile hc
    exact ⟨lexemes, tree, p, rs, hscan, hread, hcompiles, rfl,
      hcompiles.staticallyScoped (Decl.inText_of_read hscan hread)⟩
  refine ⟨haccepted, fun lexemes tree hscan hread ⟨d, hd, hmisuse⟩ => ?_⟩
  cases hrun : (compile source).1 with
  | error e => exact ⟨e, rfl⟩
  | ok c =>
    obtain ⟨lexemes', tree', p, rs, hscan', hread', -, -, hscoped⟩ := haccepted c hrun
    cases hscan.symm.trans hscan'
    cases hread.symm.trans hread'
    obtain ⟨r, -, hr⟩ := exists_of_forall₂ hscoped hd
    exact absurd hmisuse hr.not_misuses

/-- A program that uses a variable outside of the function that declares it. -/
def outOfScope : String :=
  "function main(): nothing;
function f(): nothing; var x: int; begin x := 1; end
begin f(); x := 2; end"

/-- A program in which an inner variable hides an outer one, and another one is seen. -/
def shadowing : String :=
  "function main(): nothing;
var x, y: int;
function f(): nothing; var x: int; begin x := y; end
begin x := 2; f(); end"

theorem static_scoping_outOfScope :
    ((∃ lexemes tree, Token.scan outOfScope = .ok lexemes ∧ (Decl.read lexemes).1 = .ok tree ∧
      ∃ d ∈ tree.definitions [] [], d.Misuses tree.name) ∧
    ∃ e, (compile outOfScope).1 = .error e) ∧
    ∃ c tree rs, (compile shadowing).1 = .ok c ∧
      List.Forall₂ (CompiledFunction.StaticallyScoped tree rs) rs (tree.definitions [] []) ∧
      (tree.definitions [] []).map (fun d => ["x", "y"].map (binding? tree.name · d.levels)) =
        [[some (0, .var [1, 0]), some (1, .var [0])],
          [some (0, .var [0]), some (0, .var [0])]] := by
  have hunbound : (treeOf? outOfScope).any (fun tree => (tree.definitions [] []).any fun d =>
      (Stmt.namedAll d.body).any fun x => (binding? tree.name x d.levels).isNone) = true := by
    decide +kernel
  obtain ⟨lexemes, tree, hscan, hread, hany⟩ := exists_read_of_any hunbound
  simp only [any_eq_true] at hany
  obtain ⟨d, hd, x, hx, hnone⟩ := hany
  have hmisuses : ∃ d ∈ tree.definitions [] [], d.Misuses tree.name := by
    refine ⟨d, hd, .inl ⟨x, hx, fun hops bound hfound => ?_⟩⟩
    rw [hfound] at hnone
    cases hnone
  refine ⟨⟨⟨lexemes, tree, hscan, hread, hmisuses⟩,
    (static_scoping outOfScope).2 lexemes tree hscan hread hmisuses⟩, ?_⟩
  have hknown : (treeOf? shadowing).any (fun tree => (progress? tree).any fun _ =>
      (tree.definitions [] []).map (fun d => ["x", "y"].map (binding? tree.name · d.levels)) =
        [[some (0, .var [1, 0]), some (1, .var [0])],
          [some (0, .var [0]), some (0, .var [0])]]) = true := by
    decide +kernel
  obtain ⟨c, hc⟩ := exists_compilation hknown
  obtain ⟨lexemes', tree', p, rs, hscan', hread', hcompiles, -, hscoped⟩ :=
    (static_scoping shadowing).1 c hc
  rw [treeOf?_eq hscan' hread', Option.any_some] at hknown
  obtain ⟨-, -, hbindings⟩ := (Option.any_eq_true _ _).mp hknown
  exact ⟨c, tree', rs, hc, hscoped, of_decide_eq_true hbindings⟩

end BlockLang
