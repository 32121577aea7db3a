import BlockLang.Proofs.Emit.Typing
import BlockLang.Proofs.Program.Nesting

/-!
# Visible declarations are those that bind

When the body of a function is translated and lowered, a name stands for the declaration that binds
it in the tree, and the depth of that declaration says how many functions lie between them.
-/

namespace BlockLang

open CompiledFunction Decl Declaration Emit Environment List Option

/-! ### Declarations of a name -/

/-- A name that is looked up has no declaration, or one of it is found. -/
theorem find?_name_cases {α : Type} (name : α → String) (xs : List α) (x : String) :
    (xs.find? fun a => name a = x) = none ∧ x ∉ xs.map name ∨
      ∃ a ∈ xs, name a = x ∧ (xs.find? fun a => name a = x) = some a := by
  cases hfind : xs.find? fun a => name a = x with
  | none =>
    refine .inl ⟨rfl, fun hx => ?_⟩
    obtain ⟨a, ha, hname⟩ := mem_map.mp hx
    exact find?_eq_none.mp hfind a ha (decide_eq_true hname)
  | some a =>
    have hname := find?_some hfind
    exact .inr ⟨a, mem_of_find?_eq_some hfind, of_decide_eq_true hname, rfl⟩

/-- Outside of the program a name stands for a standard routine or for nothing. -/
theorem Environment.find?_standard (x : String) :
    standard.find? x = none ∧ x ∉ FunctionDecl.standard.map FunctionDecl.name ∨
      ∃ g ∈ FunctionDecl.standard, g.name = x ∧ standard.find? x = some ⟨.fn g, -1⟩ := by
  have hmem : ∀ b, b ∈ standard.bindings ↔ ∃ g ∈ FunctionDecl.standard, b = ⟨.fn g, -1⟩ := by
    intro b
    simp [standard, declared, eq_comm]
  obtain ⟨hnone, hx⟩ | ⟨b, hb, hname, hfind⟩ :=
    find?_name_cases (fun b : Binding => b.declaration.name) standard.bindings x
  · refine .inl ⟨hnone, fun hx' => hx ?_⟩
    obtain ⟨g, hg, rfl⟩ := mem_map.mp hx'
    exact mem_map.mpr ⟨_, (hmem _).mpr ⟨g, hg, rfl⟩, rfl⟩
  · obtain ⟨g, hg, rfl⟩ := (hmem b).mp hb
    exact .inr ⟨g, hg, hname, hfind⟩

theorem Emit.calleeLabel_standard {g : FunctionDecl} {scope : Int}
    (hg : g ∈ FunctionDecl.standard) : calleeLabel g scope = .standard g.name := by
  have hstandard : ∀ g ∈ FunctionDecl.standard, g.isStandard := by decide
  rw [calleeLabel, if_pos (hstandard g hg)]

/-- A function that is introduced has the label of its definition when its scope is complete. -/
theorem Resolved.exists_label {all : List CompiledFunction} {path : List Nat} {locals : List Decl}
    {p p1 p' : Progress} {f : FunctionDecl} {label : FunctionLabel}
    (hresolved : Resolved all path locals p'.env)
    (hintroduce : introduce f p = .ok label p1)
    (hrest : ∃ added, p'.env = p1.env.declared added) :
    ∃ serial, p1.env = p.env.declared [.fn { f with serial }] ∧ ∃ r ∈ all, ∃ j,
      r.path = path ++ [j] ∧ locals.findIdx? (·.isDefinitionOf f.name) = some j ∧
        r.label = ⟨f.name, some p.env.scope, serial⟩ := by
  obtain ⟨serial, functions, hdeclare, -⟩ := introduce_cases hintroduce
  obtain ⟨added, hadded⟩ := hrest
  have hp1 := eq_declared hdeclare
  have hscope : p'.env.scope = p.env.scope := by
    rw [hadded, hp1]
    rfl
  have hmem : ⟨.fn { f with serial }, p'.env.scope⟩ ∈ p'.env.bindings := by
    rw [hscope, hadded, hp1]
    exact mem_append_right _ mem_cons_self
  rw [← hscope]
  exact ⟨serial, hp1, hresolved { f with serial } hmem⟩

/-! ### Parameters of a header -/

theorem parameterNames_of_signature {header : Header} {isDefined : Bool} {f : FunctionDecl}
    (h : header.signature isDefined = .ok f) :
    f.parameters.map (fun q => q.name) = header.parameterNames := by
  have hgroup : ∀ (group : ParameterGroup) qs, group.parameters = .ok qs →
      group.names.map DeclaredName.text = qs.map fun q => q.name := by
    intro group qs hqs
    refine map_eq_map_of_forall₂ (forall₂_of_mapM_ok hqs) fun x q hq => ?_
    split at hq
    · cases hq
    · cases hq
      rfl
  obtain ⟨groups, hgroups, rfl⟩ := exists_groups h
  rw [map_flatten, ← map_eq_map_of_forall₂ (forall₂_of_mapM_ok hgroups) hgroup]
  rfl

/-! ### Visible declarations -/

variable {f : FunctionDecl} {header : Header} {body : List Stmt}

/-- A visible declaration of a name is the declaration of the tree that binds it. A
function has the label of its definition, which stands among the same declarations. -/
inductive Bound.Introduces (tree : Decl) (all : List CompiledFunction) (x : String) :
    Bound → Binding → Prop
  | parameter {path : List Nat} {header : Header} {locals : List Decl} {body : List Stmt}
      {f : FunctionDecl} {q : Parameter} {position : Nat} {scope : Int}
      (hat : tree.subtree? path = some (.function header locals body))
      (hf : header.signature true = .ok f) (hq : f.parameters[position]? = some q)
      (hx : q.name = x) : Introduces tree all x (.parameter path position) ⟨.param q, scope⟩
  | var {path : List Nat} {names : List DeclaredName} {ty : Ty} {extents : List Nat}
      {y : DeclaredName} {scope : Int} (hat : tree.subtree? path = some (.vars names ty extents))
      (hy : y ∈ names) (hx : y.text = x) :
      Introduces tree all x (.var path) ⟨.var ⟨y.text, y.location, ty, extents⟩, scope⟩
  | function {path : List Nat} {d : Decl} {header : Header} {f : FunctionDecl} {scope : Int}
      {r : CompiledFunction} (hat : tree.subtree? path = some d)
      (hd : d = .forward header ∨ ∃ locals body, d = .function header locals body)
      (hf : header.signature f.isDefined = .ok { f with serial := 0 }) (hx : f.name = x)
      (hr : r ∈ all) (hlabel : calleeLabel f scope = r.label)
      (hpath : tree.defined? x path = some r.path) :
      Introduces tree all x (.function path) ⟨.fn f, scope⟩
  | routine {f : FunctionDecl} {scope : Int} (hf : f ∈ FunctionDecl.standard) (hx : f.name = x) :
      Introduces tree all x .routine ⟨.fn f, scope⟩

/-- All visible declarations are those that bind in the tree, and their depths say how many
functions lie in between. -/
def Visible (tree : Decl) (all : List CompiledFunction) (levels : List Enclosing)
    (env : Environment) : Prop :=
  ∀ x, Rel (fun b (found : Nat × Bound) =>
    b.scope + found.1 = env.scope ∧ found.2.Introduces tree all x b)
    (env.find? x) (binding? tree.name x levels)

theorem Emit.eq_of_depth_calleeLabel {scope depth : Int}
    (h : (calleeLabel f scope).depth = some depth) : depth = scope := by
  unfold calleeLabel at h
  split at h
  · cases h
  · exact (some.inj h).symm

section Rel

variable {α β γ δ : Type} {r : α → β → Prop} {s : γ → δ → Prop} {a a' : Option α} {b b' : Option β}

theorem rel_or (h : Rel r a b) (h' : Rel r a' b') :
    Rel r (a.or a') (b.or b') := by
  cases h with
  | some h => exact .some h
  | none => exact h'

theorem rel_map {f : α → γ} {g : β → δ} (h : Rel r a b) (hs : ∀ x y, r x y → s (f x) (g y)) :
    Rel s (a.map f) (b.map g) := by
  cases h with
  | some h => exact .some (hs _ _ h)
  | none => exact .none

end Rel

/-- The declaration of a name that was found, if the names are different. -/
theorem find?_reverse_of_nodup {qs : List Parameter} (h : (qs.map fun q => q.name).Nodup)
    (x : String) :
    (qs.reverse.find? fun q => q.name = x) = ((qs.map fun q => q.name).idxOf? x).bind (qs[·]?) := by
  induction qs with
  | nil => rfl
  | cons q qs ih =>
    rw [map_cons, nodup_cons] at h
    rw [reverse_cons, find?_append, ih h.2, map_cons, idxOf?_cons]
    by_cases hq : q.name = x
    · -- no other parameter has the name
      have hnone : (qs.map fun q => q.name).idxOf? x = none := by
        rw [idxOf?_eq_none_iff]
        exact hq ▸ h.1
      simp [hnone, hq]
    · cases hidx : (qs.map fun q => q.name).idxOf? x with
      | none => simp [hq]
      | some j =>
        have hlt : j < qs.length := by
          have := (idxOf?_eq_some_iff.mp hidx).1
          simpa using this
        simp [hq, hlt]

namespace Visible

variable {tree : Decl} {all : List CompiledFunction} {path : List Nat} {names : List String}
  {locals : List Decl} {outer : List Enclosing} {env : Environment} {k : Nat}

/-- What is visible is bound in the tree. -/
theorem exists_binding {levels : List Enclosing} (h : Visible tree all levels env) {x : String}
    {b : Binding} (hb : env.find? x = some b) :
    ∃ hops bound, binding? tree.name x levels = some (hops, bound) ∧
      b.scope + (hops : Int) = env.scope ∧ bound.Introduces tree all x b := by
  have hx := h x
  rw [hb] at hx
  generalize hfound : binding? tree.name x levels = found at hx
  cases hx with
  | some hx => exact ⟨_, _, rfl, hx⟩

/-- One more local declaration, which introduces what it binds. -/
theorem step (h : Visible tree all (⟨path, names, locals, k⟩ :: outer) env) {d : Decl}
    (hd : locals[k]? = some d) {added : List Declaration}
    (hadded : ∀ x, Rel (fun e (b : Bound) => b.Introduces tree all x ⟨e, env.scope⟩)
      (added.reverse.find? fun e => e.name = x) (d.bound? x (path ++ [k]))) :
    Visible tree all (⟨path, names, locals, k + 1⟩ :: outer) (env.declared added) := by
  intro x
  have hbinding : binding? tree.name x (⟨path, names, locals, k + 1⟩ :: outer) =
      ((d.bound? x (path ++ [k])).map (0, ·)).or
        (binding? tree.name x (⟨path, names, locals, k⟩ :: outer)) := by
    rw [binding?_cons, binding?_cons, Enclosing.bound?_succ, hd, bind_some]
    cases d.bound? x (path ++ [k]) <;> rfl
  rw [find?_declared, hbinding]
  exact rel_or (rel_map (hadded x) fun e b hb => ⟨Int.add_zero _, hb⟩) (h x)

/-- One more function, of which the parameters are visible. -/
theorem enter (h : Visible tree all outer env) {header : Header} {body : List Stmt}
    (hat : tree.subtree? path = some (.function header locals body)) {f : FunctionDecl}
    (hf : header.signature true = .ok f) (hnodup : (f.parameters.map fun q => q.name).Nodup) :
    Visible tree all (⟨path, header.parameterNames, locals, 0⟩ :: outer)
      (env.enter.declared (f.parameters.map .param)) := by
  intro x
  rw [find?_declared, binding?_cons, Enclosing.bound?_zero]
  refine rel_or ?_ ?_
  · have hfind : ((f.parameters.map param).reverse.find? fun d => d.name = x) =
        (f.parameters.reverse.find? fun q => q.name = x).map .param := by
      rw [← map_reverse, find?_map]
      rfl
    rw [hfind, find?_reverse_of_nodup hnodup, parameterNames_of_signature hf]
    cases hidx : header.parameterNames.idxOf? x with
    | none => exact .none
    | some j =>
      rw [← parameterNames_of_signature hf] at hidx
      obtain ⟨hlt, hname, -⟩ := idxOf?_eq_some_iff.mp hidx
      rw [length_map] at hlt
      have hq : f.parameters[j]? = some f.parameters[j] := getElem?_eq_getElem hlt
      rw [bind_some, hq]
      refine .some ⟨Int.add_zero _, .parameter hat hf hq ?_⟩
      simpa using hname
  · -- what was visible before is one function further away
    have houter := rel_map (f := id) (g := fun found : Nat × Bound => (found.1 + 1, found.2))
      (s := fun b (found : Nat × Bound) =>
        b.scope + found.1 = env.scope + 1 ∧ found.2.Introduces tree all x b)
      (h x) fun b found hb => ⟨by have hscope := hb.1; simp only [id]; omega, hb.2⟩
    rwa [Option.map_id] at houter

theorem vars {xs : List DeclaredName} {ty : Ty} {extents : List Nat}
    (hat : tree.subtree? path = some (.vars xs ty extents)) (x : String) (scope : Int) :
    Rel (fun e (b : Bound) => b.Introduces tree all x ⟨e, scope⟩)
      ((xs.map fun y => var ⟨y.text, y.location, ty, extents⟩).reverse.find?
        fun e => e.name = x) (bound? x path (.vars xs ty extents)) := by
  rw [bound?, ← map_reverse, find?_map]
  change Rel _ ((xs.reverse.find? fun y => y.text = x).map _) _
  obtain ⟨hnone, hx⟩ | ⟨y, hy, hname, hfind⟩ := find?_name_cases DeclaredName.text xs.reverse x
  · rw [map_reverse, mem_reverse] at hx
    rw [hnone, if_neg hx]
    exact .none
  · rw [mem_reverse] at hy
    rw [hfind, if_pos (mem_map.mpr ⟨y, hy, hname⟩)]
    exact .some (.var hat hy hname)

/-- A function that is introduced, and resolved when its scope is complete. -/
theorem introduce {p p1 p' : Progress} {f : FunctionDecl} {label : FunctionLabel}
    {header around : Header} {d : Decl} {isDefined : Bool}
    (h : Visible tree all (⟨path, names, locals, k⟩ :: outer) p.env)
    (haround : tree.subtree? path = some (.function around locals body))
    (hd : locals[k]? = some d)
    (hkind : d = .forward header ∨ ∃ ds body, d = .function header ds body)
    (hf : header.signature isDefined = .ok f) (htext : header.location ≠ .standardLibrary)
    (hintroduce : introduce f p = .ok label p1)
    (hresolved : Resolved all path locals p'.env)
    (hrest : ∃ added, p'.env = p1.env.declared added) :
    Visible tree all (⟨path, names, locals, k + 1⟩ :: outer) p1.env := by
  obtain ⟨serial, hp1, r, hr, j, hpath, hj, hlabel⟩ := hresolved.exists_label hintroduce hrest
  obtain ⟨hname, hlocation, -, rfl, hserial⟩ := eq_of_signature hf
  have hstandard : f.isStandard = false := decide_eq_false (hlocation ▸ htext)
  rw [hp1]
  refine h.step hd fun x => ?_
  have hbound : d.bound? x (path ++ [k]) =
      if header.name = x then some (.function (path ++ [k])) else none := by
    obtain rfl | ⟨ds, body, rfl⟩ := hkind <;> rfl
  rw [hbound, reverse_singleton, find?_singleton]
  by_cases hx : header.name = x
  · have hx' : (fn { f with serial }).name = x := hname.trans hx
    rw [if_pos hx, if_pos (decide_eq_true hx')]
    refine .some (.function ((subtree?_append_singleton haround).trans hd) hkind ?_ hx' hr ?_ ?_)
    · rw [hf, ← hserial]
    · rw [hlabel, calleeLabel]
      exact if_neg (Bool.eq_false_iff.mp hstandard)
    · have hj : locals.findIdx? (·.isDefinitionOf x) = some j := hx' ▸ hj
      rw [defined?_append_singleton haround, Decl.locals, hj, hpath]
      rfl
  · have hx' : ¬ (fn { f with serial }).name = x := fun h => hx (hname.symm.trans h)
    rw [if_neg hx, if_neg (fun h => hx' (of_decide_eq_true h))]
    exact .none

/-- Outside of the program there are the program itself and the standard routines. -/
theorem outermost {r : CompiledFunction}
    (hat : tree.subtree? [] = some (.function header locals body))
    (hf : header.signature true = .ok f) (hstandard : f.isStandard = false) (hr : r ∈ all)
    (hpath : r.path = []) (hlabel : r.label = ⟨f.name, some 0, f.serial⟩) :
    Visible tree all [] (standard.enter.declared [.fn f]) := by
  obtain ⟨hname, -, -, hdefined, hserial⟩ := eq_of_signature hf
  intro x
  have hprogram : tree.name = f.name := by
    cases hat
    exact hname.symm
  rw [find?_declared_singleton, binding?, outermostBinding?, hprogram]
  by_cases hx : f.name = x
  · rw [if_pos (show (fn f).name = x from hx), if_pos hx.symm]
    refine .some ⟨rfl, .function hat (.inr ⟨locals, body, rfl⟩) ?_ hx hr ?_ ?_⟩
    · have hfunction : { f with serial := 0 } = f := by rw [← hserial]
      rw [hfunction, hdefined, hf]
    · rw [hlabel, calleeLabel]
      exact if_neg (Bool.eq_false_iff.mp hstandard)
    · rw [hpath]
      rfl
  · rw [if_neg (show ¬ (fn f).name = x from hx), if_neg (Ne.symm hx)]
    change Rel _ (standard.find? x) _
    obtain ⟨hnone, hx⟩ | ⟨g, hg, rfl, hfind⟩ := find?_standard x
    · rw [hnone, if_neg hx]
      exact .none
    · rw [hfind, if_pos (mem_map_of_mem hg)]
      exact .some ⟨rfl, .routine hg rfl⟩

end Visible

/-! ### Derivations -/

/-- A compiled function is a function of the tree, and what its body sees is what binds there. -/
structure Realizes (tree : Decl) (all : List CompiledFunction) (r : CompiledFunction)
    (d : Definition) : Prop where
  path : d.path = r.path
  header : d.header = r.header
  body : d.body = r.body
  subtree : tree.subtree? r.path = some r.definition
  visible : Visible tree all d.levels r.opened.env

section Derivations

variable {tree : Decl} {all : List CompiledFunction}

/-- The parameters of a function have different names. -/
theorem Declares.Around.nodup_parameters {r : CompiledFunction} {p1 p2 p3 : Progress}
    (h : Declares.Around r p1 p2 p3) : (r.function.parameters.map fun q => q.name).Nodup := by
  have hnodup := h.entered.env.nodup_parameters p2.env.scope
  rw [h.scope_eq.1, h.redeclares.env_eq, h.introduced.env.ordered.parameters_enter] at hnodup
  exact hnodup

/-- Local declarations, seen from the position `k` on: after them all are seen, and the
functions among them are functions of the tree. -/
theorem Declares.realizes {path : List Nat} {k : Nat} {ds : List Decl} {p p' : Progress}
    {rs : List CompiledFunction} (h : Declares path k ds p p' rs) (hp : p.Settled)
    (htext : AllInText ds) (hall : rs ⊆ all) {names : List String} {locals front : List Decl}
    {outer : List Enclosing} (hat : tree.subtree? path = some (.function header locals body))
    (hlocals : locals = front ++ ds) (hk : front.length = k)
    (hresolved : Resolved all path locals p'.env)
    (hvisible : Visible tree all (⟨path, names, locals, k⟩ :: outer) p.env) :
    Visible tree all (⟨path, names, locals, locals.length⟩ :: outer) p'.env ∧
      List.Forall₂ (Realizes tree all) rs
        (definitionsFrom (Enclosing.mk path names locals) outer path k ds) := by
  induction h generalizing header names locals front body outer with
  | nil =>
    rw [append_nil] at hlocals
    subst hlocals hk
    exact ⟨hvisible, by rw [definitionsFrom]; exact .nil⟩
  | @vars path k owner xs ty extents ds p p1 p' rs hvars _ ih =>
    subst hk
    have hd : locals[front.length]? = some (.vars xs ty extents) := by simp [hlocals]
    have hat1 := (subtree?_append_singleton hat).trans hd
    have hvisible1 :
        Visible tree all (⟨path, names, locals, front.length + 1⟩ :: outer) p1.env := by
      rw [(declareVariables_ok hvars).env_eq]
      exact hvisible.step hd (Visible.vars hat1 · p.env.scope)
    simp only [definitionsFrom, definitions, nil_append]
    exact ih (declareVariables_settled hp hvars) htext.2 hall hat
      (by rw [hlocals, append_cons]) length_append hresolved hvisible1
  | @forward path k header' f label ds p p1 p' rs hheader hintroduce rest ih =>
    subst hk
    have hp1 := introduce_settled hp hheader hintroduce
    have hvisible1 := hvisible.introduce hat (by simp [hlocals]) (.inl rfl) hheader htext.1
      hintroduce hresolved (rest.env_eq hp1)
    simp only [definitionsFrom, definitions, nil_append]
    exact ih hp1 htext.2 hall hat (by rw [hlocals, append_cons]) length_append hresolved
      hvisible1
  | @function path k r ds p p1 p2 p3 p' rs rs' hpath hintroduce hopen inner hcloses rest ihinner
      ihrest =>
    subst hk
    have around := Declares.around hp hintroduce hopen inner hcloses
    obtain ⟨⟨hlocation, hinnertext⟩, hresttext⟩ := htext
    have hsubset : rs ⊆ all ∧ r ∈ all ∧ rs' ⊆ all := by
      simpa [append_subset, cons_subset] using hall
    have hd : locals[front.length]? = some r.definition := by simp [hlocals]
    have hat1 := (subtree?_append_singleton hat).trans hd
    have hvisible1 := hvisible.introduce hat hd (.inr ⟨r.locals, r.body, rfl⟩)
      hcloses.header hlocation hintroduce hresolved (around.env_eq ▸ rest.env_eq around.closed)
    rw [← hpath] at hat1
    have hvisible2 := hvisible1.enter hat1 hcloses.header around.nodup_parameters
    rw [← around.redeclares.env_eq] at hvisible2
    -- the scope of the function is complete when its body is translated
    have hcomplete := (inner.resolved around.entered around.introduced.env.ordered
      around.redeclares.env_eq hcloses.leave).mono hsubset.1
    obtain ⟨hopened, hinner⟩ := ihinner around.entered hinnertext hsubset.1 hat1
      (nil_append _).symm rfl hcomplete hvisible2
    obtain ⟨hend, hrest⟩ := ihrest around.closed hresttext hsubset.2.2 hat
      (by rw [hlocals, append_cons]) length_append hresolved (around.env_eq ▸ hvisible1)
    refine ⟨hend, ?_⟩
    rw [definitionsFrom, definition, definitions, append_cons rs]
    rw [hpath] at hinner hopened
    exact rel_append (rel_append hinner (.cons ⟨hpath.symm, rfl, rfl, hat1, hopened⟩ .nil)) hrest

namespace Compiles

variable {p : Progress} {rs : List CompiledFunction} (h : Compiles tree p rs)
  (htext : tree.InText)

include h htext

/-- The functions of a program are those of its tree, in the same order. -/
theorem realizes : List.Forall₂ (Realizes tree rs) rs (tree.definitions [] []) := by
  obtain ⟨r, p1, p2, inner, htree, rfl, hinner, houter⟩ := h.outermost
  obtain ⟨hname, hlocation, -, -, hserial⟩ := eq_of_signature houter.closes.header
  have hat : tree.subtree? [] = some (.function r.header r.locals r.body) := by
    rw [htree]
    rfl
  obtain ⟨hlocation', hinnertext⟩ : r.header.location ≠ .standardLibrary ∧
      AllInText r.locals := by
    rw [htree] at htext
    exact htext
  have hstandard : r.function.isStandard = false := decide_eq_false (hlocation ▸ hlocation')
  have hlabel : r.label = ⟨r.function.name, some 0, r.function.serial⟩ := by
    rw [houter.label, hserial]
  have hordered : (standard.enter.declared [.fn r.function]).Ordered :=
    Ordered.declared (Ordered.enter ⟨by decide, by decide⟩) _
  have henv : p1.env = (standard.enter.declared [.fn r.function]).enter.declared
      (r.function.parameters.map .param) := by
    rw [houter.env, houter.parameters]
    rfl
  have hr : r ∈ inner ++ [r] := mem_append_right _ (mem_singleton_self r)
  have hvisible := (Visible.outermost hat houter.closes.header hstandard hr houter.path
    hlabel).enter hat houter.closes.header (by rw [houter.parameters]; exact nodup_nil)
  rw [← henv] at hvisible
  have hresolved := (hinner.resolved houter.settled hordered henv houter.closes.leave).mono
    (subset_append_left inner [r])
  obtain ⟨hopened, hinner⟩ := hinner.realizes houter.settled hinnertext
    (subset_append_left inner [r]) hat (nil_append _).symm rfl hresolved hvisible
  have hdefinitions : tree.definitions [] [] =
      definitionsFrom (.mk [] r.header.parameterNames r.locals) [] [] 0 r.locals ++
        [⟨[], [⟨[], r.header.parameterNames, r.locals, r.locals.length⟩], r.header, r.body⟩] := by
    rw [htree, definition, definitions]
  rw [hdefinitions]
  refine rel_append hinner (.cons ⟨houter.path.symm, rfl, rfl, ?_, hopened⟩ .nil)
  rw [houter.path]
  exact hat

/-- A function of a program is one of its tree. -/
theorem exists_definition {r : CompiledFunction} (hr : r ∈ rs) :
    ∃ d ∈ tree.definitions [] [], Realizes tree rs r d := by
  obtain ⟨i, hi, rfl⟩ := getElem_of_mem hr
  have hi' := (h.realizes htext).length_eq ▸ hi
  exact ⟨_, getElem_mem hi', (forall₂_iff_get.mp (h.realizes htext)).2 i hi hi'⟩

theorem exists_introduces {r : CompiledFunction} (hr : r ∈ rs) {x : String} {b : Binding}
    (hb : r.opened.env.find? x = some b) : ∃ bound, Bound.Introduces tree rs x bound b := by
  obtain ⟨d, -, hrealizes⟩ := h.exists_definition htext hr
  obtain ⟨hops, bound, -, -, hintroduces⟩ := hrealizes.visible.exists_binding hb
  exact ⟨bound, hintroduces⟩

/-- A path belongs to one function. -/
theorem nodup_paths : (rs.map path).Nodup := by
  have hpaths : rs.map path = (tree.definitions [] []).map Definition.path := by
    rw [← forall₂_eq_eq_eq, forall₂_map_left_iff, forall₂_map_right_iff]
    exact (h.realizes htext).imp fun _ _ hrealizes => hrealizes.path.symm
  rw [hpaths]
  exact nodup_definitions tree [] []

end Compiles

end Derivations

end BlockLang
