import BlockLang.Proofs.Program.Label
import BlockLang.Proofs.Tree.Scoping

/-!
# Functions declared ahead

A function that was declared ahead shares its serial number with its definition, and so its label.
Before a scope is left every function declared ahead in it is defined there, once.
-/

namespace BlockLang

open Declaration Emit Environment List

variable {env : Environment} {f : FunctionDecl} {rs : List CompiledFunction} {locals : List Decl}
  {path : List Nat}

namespace Environment

variable {env env' : Environment}

theorem Ordered.declared (h : env.Ordered) (ds : List Declaration) : (env.declared ds).Ordered := by
  have hscope : ∀ b ∈ (ds.map fun d => (⟨d, env.scope⟩ : Binding)).reverse, b.scope = env.scope :=
    fun b hb => of_decide_eq_true (Ordered.scope_of_mem_declared b hb)
  constructor
  · refine pairwise_append.mpr ⟨?_, h.sorted, fun b hb b' hb' => ?_⟩
    · refine pairwise_of_forall_mem_list fun b hb b' hb' => ?_
      rewrite [hscope b hb, hscope b' hb']
      exact Int.le_refl _
    · rw [hscope b hb]
      exact h.scope_le b' hb'
  · exact forall_mem_append.mpr ⟨fun b hb => Int.le_of_eq (hscope b hb), h.scope_le⟩

/-- In a scope that can be left every function that was declared ahead is defined. -/
theorem definition_of_leave (h : env.Ordered) {ds : List Declaration}
    (hleave : (env.enter.declared ds).leave = .ok env') (hf : .fn f ∈ ds)
    (hforward : f.isDefined = false) : ∃ g, .fn g ∈ ds ∧ g.isDefined ∧ g.name = f.name := by
  have houter : env.bindings.takeWhile (fun b => decide (b.scope = env.scope + 1)) = [] := by
    rw [takeWhile_eq_nil_iff]
    intro hlt
    have hle := h.scope_le _ (get_mem env.bindings ⟨0, hlt⟩)
    simp only [decide_eq_true_eq]
    omega
  have hinnermost : (env.enter.declared ds).innermost =
      (ds.map fun d => (⟨d, env.scope + 1⟩ : Binding)).reverse := by
    change ((ds.map fun d => (⟨d, env.scope + 1⟩ : Binding)).reverse ++ env.bindings).takeWhile
      (fun b => decide (b.scope = env.scope + 1)) = _
    rw [takeWhile_append_of_pos Ordered.scope_of_mem_declared, houter, append_nil]
  have hmem : ∀ g, g ∈ (env.enter.declared ds).innermost.filterMap Binding.function? ↔
      .fn g ∈ ds := by
    intro g
    rw [hinnermost, mem_filterMap]
    constructor
    · rintro ⟨b, hb, hg⟩
      obtain ⟨d, hd, rfl⟩ := mem_map.mp (mem_reverse.mp hb)
      cases d <;> cases hg
      exact hd
    · intro hg
      exact ⟨⟨.fn g, env.scope + 1⟩, mem_reverse.mpr (mem_map_of_mem hg), rfl⟩
  unfold leave at hleave
  dsimp only at hleave
  split at hleave
  · cases hleave
  · rename_i hfulfilled
    have hnone := findSome?_eq_none_iff.mp hfulfilled f (mem_filter.mpr
      ⟨mem_reverse.mpr ((hmem f).mpr hf), decide_eq_true hforward⟩)
    unfold unfulfilled? at hnone
    split at hnone
    · cases hnone
    · rename_i g hg
      have hg' := find?_some hg
      simp only [decide_eq_true_eq] at hg'
      exact ⟨g, (hmem g).mp (mem_of_find?_eq_some hg), hg'⟩

end Environment

/-! ### Functions that are declared ahead -/

/-- The functions among the declarations that have been added, and the records of their
definitions. -/
structure Fulfils (path : List Nat) (k : Nat) (ds : List Decl) (env : Environment)
    (added : List Declaration) (rs : List CompiledFunction) : Prop where
  defined : ∀ f, .fn f ∈ added → f.isDefined → ∃ r ∈ rs, ∃ j, r.path = path ++ [k + j] ∧
    ds.findIdx? (·.isDefinitionOf f.name) = some j ∧ r.label = ⟨f.name, some env.scope, f.serial⟩
  /-- A name that is a function before is only declared again to define it. -/
  again : ∀ x g, env.find? x = some ⟨.fn g, env.scope⟩ → ∀ d ∈ added, d.name = x →
    g.isDefined = false ∧ ∃ f, d = .fn f ∧ f.isDefined ∧ f.serial = g.serial
  serial : ∀ f g, .fn f ∈ added → .fn g ∈ added → f.name = g.name → f.serial = g.serial

namespace Fulfils

variable {path : List Nat} {k : Nat} {d : Decl} {ds : List Decl} {env : Environment}
  {added : List Declaration} {rs rs' : List CompiledFunction}

/-- A function in front of further declarations. -/
theorem cons (h : Fulfils path (k + 1) ds (env.declared [.fn f]) added rs)
    (hagain : ∀ g, env.find? f.name = some ⟨.fn g, env.scope⟩ →
      g.isDefined = false ∧ f.isDefined ∧ f.serial = g.serial)
    (hdefinition : ∀ x, d.isDefinitionOf x ↔ f.isDefined ∧ f.name = x)
    (hrecord : f.isDefined → ∃ r ∈ rs', r.path = path ++ [k] ∧
      r.label = ⟨f.name, some env.scope, f.serial⟩) (hsubset : rs ⊆ rs') :
    Fulfils path k (d :: ds) env (.fn f :: added) rs' := by
  have hfind : (env.declared [.fn f]).find? f.name = some ⟨.fn f, env.scope⟩ := by
    rw [find?_declared_singleton]
    exact if_pos rfl
  exact {
    defined := by
      intro g hg hdefined
      by_cases hsame : f.isDefined ∧ f.name = g.name
      · have hg' : g = f := by
          rcases mem_cons.mp hg with hg | hg
          · cases hg
            rfl
          · -- the name would be declared again after its definition
            obtain ⟨hnot, -⟩ := h.again f.name f hfind _ hg hsame.2.symm
            rw [hsame.1] at hnot
            cases hnot
        subst hg'
        obtain ⟨r, hr, hpath, hlabel⟩ := hrecord hdefined
        refine ⟨r, hr, 0, hpath, ?_, hlabel⟩
        rw [findIdx?_cons, if_pos ((hdefinition _).mpr hsame)]
      · have hg' : .fn g ∈ added := by
          rcases mem_cons.mp hg with hg | hg
          · cases hg
            exact absurd ⟨hdefined, rfl⟩ hsame
          · exact hg
        obtain ⟨r, hr, j, hpath, hj, hlabel⟩ := h.defined g hg' hdefined
        refine ⟨r, hsubset hr, j + 1, by rw [hpath]; congr 2; omega, ?_, hlabel⟩
        rw [findIdx?_cons, if_neg (fun hd => hsame ((hdefinition _).mp hd)), hj]
        rfl
    again := by
      intro x g hx e he hname
      by_cases hf : f.name = x
      · subst hf
        obtain ⟨hforward, hdefined, hserial⟩ := hagain g hx
        rcases mem_cons.mp he with rfl | he
        · exact ⟨hforward, f, rfl, hdefined, hserial⟩
        · obtain ⟨hnot, -⟩ := h.again f.name f hfind e he hname
          rw [hdefined] at hnot
          cases hnot
      · rcases mem_cons.mp he with rfl | he
        · exact absurd hname hf
        · refine h.again x g ?_ e he hname
          rw [find?_declared_singleton]
          exact (if_neg hf).trans hx
    serial := by
      have hnew : ∀ g, .fn g ∈ added → f.name = g.name → f.serial = g.serial := by
        intro g hg hname
        obtain ⟨-, g', hg', -, hserial⟩ := h.again f.name f hfind _ hg hname.symm
        cases hg'
        exact hserial.symm
      intro g g' hg hg' hname
      rcases mem_cons.mp hg with hg | hg <;> rcases mem_cons.mp hg' with hg' | hg'
      · cases hg
        cases hg'
        rfl
      · cases hg
        exact hnew g' hg' hname
      · cases hg'
        exact (hnew g hg hname.symm).symm
      · exact h.serial g g' hg hg' hname }

/-- Variables in front of further declarations. -/
theorem vars {vs : List Variable}
    (h : Fulfils path (k + 1) ds (env.declared (vs.map .var)) added rs)
    (hvars : ∀ x g, env.find? x = some ⟨.fn g, env.scope⟩ → ∀ v ∈ vs, v.name ≠ x)
    (hdefinition : ∀ x, ¬ d.isDefinitionOf x) :
    Fulfils path k (d :: ds) env (vs.map .var ++ added) rs := by
  have hmem : ∀ f, .fn f ∈ vs.map var ++ added → .fn f ∈ added := by
    intro f hf
    rcases mem_append.mp hf with hf | hf
    · obtain ⟨v, -, hv⟩ := mem_map.mp hf
      cases hv
    · exact hf
  exact {
    defined := by
      intro f hf hdefined
      obtain ⟨r, hr, j, hpath, hj, hlabel⟩ := h.defined f (hmem f hf) hdefined
      refine ⟨r, hr, j + 1, by rw [hpath]; congr 2; omega, ?_, hlabel⟩
      rw [findIdx?_cons, if_neg (hdefinition _), hj]
      rfl
    again := by
      intro x g hx e he hname
      rcases mem_append.mp he with he | he
      · obtain ⟨v, hv, rfl⟩ := mem_map.mp he
        exact absurd hname (hvars x g hx v hv)
      · refine h.again x g ?_ e he hname
        have hnone : (vs.map var).reverse.find? (fun d => d.name = x) = none := by
          rw [find?_eq_none]
          intro e he hname
          obtain ⟨v, hv, rfl⟩ := mem_map.mp (mem_reverse.mp he)
          exact hvars x g hx v hv (of_decide_eq_true hname)
        rw [find?_declared, hnone]
        exact hx
    serial := fun f g hf hg => h.serial f g (hmem f hf) (hmem g hg) }

end Fulfils

/-- A variable does not take the name of a function of its scope. -/
theorem Emit.names_of_declareVariables {owner : String} {ty : Ty} {extents : List Nat}
    {x : String} {g : FunctionDecl} : ∀ {names : List DeclaredName} {p p' : Progress},
      names.forM (declareVariable owner ty extents) p = .ok () p' →
      p.env.find? x = some ⟨.fn g, p.env.scope⟩ → ∀ y ∈ names, y.text ≠ x
  | [], _, _, _, _ => forall_mem_nil _
  | y :: ys, p, p', h, hfind => by
    obtain ⟨_, p1, hy, hys⟩ := bind_eq_ok_iff.mp h
    obtain ⟨env, henv, hp1, -⟩ := declareVariable_ok hy
    have hne : y.text ≠ x := by
      rintro rfl
      obtain ⟨_, _, -, hvar, -⟩ := ahead_of_declare henv hfind
      cases hvar
    refine forall_mem_cons.mpr ⟨hne, names_of_declareVariables (g := g) hys ?_⟩
    rw [hp1, eq_declared henv, find?_declared_singleton]
    exact (if_neg hne).trans hfind

namespace Declares

variable {path : List Nat} {k : Nat} {ds : List Decl} {p p' : Progress}
  {rs : List CompiledFunction}

/-- A function is introduced where one of its name is declared only to define it. -/
theorem again_of_introduce {g : FunctionDecl} {label : FunctionLabel} {p1 : Progress}
    (h : introduce f p = .ok label p1) (hg : p.env.find? f.name = some ⟨.fn g, p.env.scope⟩) :
    g.isDefined = false ∧ f.isDefined ∧ label.serial = g.serial := by
  obtain ⟨serial, functions, hdeclare, rfl, -, hcases⟩ := introduce_cases h
  obtain ⟨g', f', hg', hf', hforward, hdefined⟩ := ahead_of_declare hdeclare hg
  cases hg'
  cases hf'
  refine ⟨hforward, hdefined, ?_⟩
  obtain ⟨forward, hfind, -, hserial, -⟩ | ⟨hall, -, -⟩ := hcases
  · rw [hg] at hfind
    cases hfind
    exact hserial
  · rw [hall g hg] at hforward
    cases hforward

/-- The functions among local declarations are defined once, by the records. -/
theorem fulfils (h : Declares path k ds p p' rs) (hp : p.Settled) :
    ∃ added, p'.env = p.env.declared added ∧ Fulfils path k ds p.env added rs := by
  induction h with
  | nil => exact ⟨[], rfl, by simp, by simp, by simp⟩
  | @vars path k owner names ty extents ds p p1 p' rs hvars _ ih =>
    obtain ⟨added, hadded, hfulfils⟩ := ih (declareVariables_settled hp hvars)
    rw [(declareVariables_ok hvars).env_eq] at hadded hfulfils
    rw [← declared_append] at hadded
    refine ⟨_, hadded, ?_⟩
    have hmap : (names.map fun x => var ⟨x.text, x.location, ty, extents⟩) =
        (names.map fun x => (⟨x.text, x.location, ty, extents⟩ : Variable)).map .var := by
      rw [map_map]
      rfl
    rw [hmap] at hfulfils ⊢
    refine hfulfils.vars (fun x g hx v hv => ?_) fun x => by simp [Decl.isDefinitionOf]
    obtain ⟨y, hy, rfl⟩ := mem_map.mp hv
    exact names_of_declareVariables hvars hx y hy
  | @forward path k header f label ds p p1 p' rs hheader hintroduce _ ih =>
    obtain ⟨serial, functions, hdeclare, hlabel, -, -⟩ := introduce_cases hintroduce
    obtain ⟨added, hadded, hfulfils⟩ := ih
      (introduce_settled hp hheader hintroduce)
    obtain ⟨-, -, -, hdefined, -⟩ := eq_of_signature hheader
    rw [eq_declared hdeclare] at hadded hfulfils
    rw [← declared_append] at hadded
    refine ⟨_, hadded, hfulfils.cons (fun g hg => ?_) (fun x => ?_) ?_ (List.Subset.refl _)⟩
    · obtain ⟨hforward, hf, hserial⟩ := again_of_introduce hintroduce hg
      exact ⟨hforward, hf, by rw [hlabel] at hserial; exact hserial⟩
    · simp [Decl.isDefinitionOf, hdefined]
    · simp [hdefined]
  | @function path k r ds p p1 p2 p3 p' rs rs' hpath hintroduce hopen inner hcloses _ _ ihrest =>
    have around := Declares.around hp hintroduce hopen inner hcloses
    obtain ⟨serial, functions, hdeclare, hlabel, -, -⟩ := introduce_cases hintroduce
    obtain ⟨added, hadded, hfulfils⟩ := ihrest around.closed
    obtain ⟨hname, -, -, hdefined, -⟩ := eq_of_signature hcloses.header
    rw [around.env_eq, eq_declared hdeclare] at hadded hfulfils
    rw [← declared_append] at hadded
    refine ⟨_, hadded, hfulfils.cons (fun g hg => ?_) (fun x => ?_) (fun _ => ?_) ?_⟩
    · obtain ⟨hforward, hf, hserial⟩ := again_of_introduce hintroduce hg
      exact ⟨hforward, hf, by rw [hlabel] at hserial; exact hserial⟩
    · simp [Decl.isDefinitionOf, CompiledFunction.definition, hdefined, hname]
    · exact ⟨r, by simp, hpath, hlabel⟩
    · exact fun s hs => by simp [hs]

end Declares

/-- The functions of the innermost scope have the labels of their definitions among the
local declarations of the function at a path. -/
def Resolved (rs : List CompiledFunction) (path : List Nat) (locals : List Decl)
    (env : Environment) : Prop :=
  ∀ f, ⟨.fn f, env.scope⟩ ∈ env.bindings → ∃ r ∈ rs, ∃ j, r.path = path ++ [j] ∧
    locals.findIdx? (·.isDefinitionOf f.name) = some j ∧
    r.label = ⟨f.name, some env.scope, f.serial⟩

theorem Resolved.mono {rs' : List CompiledFunction} (h : Resolved rs path locals env)
    (hrs : rs ⊆ rs') : Resolved rs' path locals env := by
  intro f hf
  obtain ⟨r, hr, hresolved⟩ := h f hf
  exact ⟨r, hrs hr, hresolved⟩

/-- When a scope can be left all its functions are resolved. -/
theorem Declares.resolved {p p' : Progress} {outer : Environment} {parameters : List Parameter}
    (h : Declares path 0 locals p p' rs) (hp : p.Settled) (houter : outer.Ordered)
    (henv : p.env = outer.enter.declared (parameters.map .param))
    (hleave : p'.env.leave = .ok env) :
    Resolved rs path locals p'.env := by
  obtain ⟨added, hadded, hfulfils⟩ := h.fulfils hp
  have hscope : p'.env.scope = p.env.scope := by rw [hadded, scope_declared]
  -- a function of the innermost scope is one of those that were added
  have hmem : ∀ f, .fn f ∈ parameters.map param ++ added → .fn f ∈ added := by
    intro f hf
    rcases mem_append.mp hf with hf | hf
    · obtain ⟨q, -, hq⟩ := mem_map.mp hf
      cases hq
    · exact hf
  have hadded' : p'.env = outer.enter.declared (parameters.map .param ++ added) := by
    rw [hadded, henv, ← declared_append]
  have hfunction : ∀ f, ⟨.fn f, p'.env.scope⟩ ∈ p'.env.bindings → .fn f ∈ added := by
    intro f hf
    rw [hadded'] at hf
    rcases mem_append.mp hf with hf | hf
    · obtain ⟨d, hd, heq⟩ := mem_map.mp (mem_reverse.mp hf)
      cases heq
      exact hmem f hd
    · have hle : outer.scope + 1 ≤ outer.scope := houter.scope_le _ hf
      omega
  intro f hf
  rw [hscope]
  have hf := hfunction f hf
  by_cases hdefined : f.isDefined
  · obtain ⟨r, hr, j, hpath, hj, hlabel⟩ := hfulfils.defined f hf hdefined
    exact ⟨r, hr, j, by rw [hpath, Nat.zero_add], hj, hlabel⟩
  · obtain ⟨g, hg, hgdefined, hname⟩ := definition_of_leave houter (hadded' ▸ hleave)
      (mem_append_right _ hf) (Bool.eq_false_iff.mpr hdefined)
    have hg := hmem g hg
    obtain ⟨r, hr, j, hpath, hj, hlabel⟩ := hfulfils.defined g hg hgdefined
    refine ⟨r, hr, j, by rw [hpath, Nat.zero_add], hname ▸ hj, ?_⟩
    rw [hlabel, hname, hfulfils.serial f g hf hg hname.symm]

end BlockLang
