import BlockLang.Proofs.Program.Forward

/-!
# Functions inside functions

The scope of a function is as deep as its path is long. What a function sees of a scope
around it was declared by the function that the scope belongs to: all its parameters, and
its variables as far as they come before.
-/

namespace BlockLang

open Emit Environment List List.Subset

variable {b : Binding} {env' : Environment} {scope : Int}

/-! ### Declarations of a scope -/

namespace Environment

variable (env : Environment) (ds : List Declaration) (scope : Int)

theorem ofScope_declared : (env.declared ds).ofScope scope =
    env.ofScope scope ++ (if scope = env.scope then ds.map fun d => ⟨d, env.scope⟩ else []) := by
  have hfilter : ((ds.map fun d => (⟨d, env.scope⟩ : Binding)).filter fun b => b.scope = scope) =
      if scope = env.scope then ds.map fun d => ⟨d, env.scope⟩ else [] := by
    split
    · rename_i hscope
      rw [filter_eq_self]
      intro b hb
      obtain ⟨d, -, rfl⟩ := mem_map.mp hb
      exact decide_eq_true hscope.symm
    · rename_i hscope
      rw [filter_eq_nil_iff]
      intro b hb
      obtain ⟨d, -, rfl⟩ := mem_map.mp hb
      simpa using Ne.symm hscope
  rw [ofScope, declared, filter_append, filter_reverse, hfilter, reverse_append,
    reverse_reverse]
  rfl

theorem ofScope_prefix_declared : env.ofScope scope <+: (env.declared ds).ofScope scope := by
  rw [ofScope_declared]
  exact prefix_append _ _

variable {env ds scope}

theorem ofScope_declared_of_ne (h : scope ≠ env.scope) :
    (env.declared ds).ofScope scope = env.ofScope scope := by
  rw [ofScope_declared, if_neg h, append_nil]

/-- In a scope that has just been entered nothing is declared. -/
theorem Ordered.ofScope_enter (h : env.Ordered) : env.enter.ofScope (env.scope + 1) = [] := by
  rw [ofScope, reverse_eq_nil_iff, filter_eq_nil_iff]
  intro b hb
  have hle := h.scope_le b hb
  simp only [decide_eq_true_eq]
  omega

theorem parameters_congr (h : env'.ofScope scope = env.ofScope scope) :
    env'.parameters scope = env.parameters scope := by rw [parameters, parameters, h]

theorem locals_prefix (h : env.ofScope scope <+: env'.ofScope scope) :
    env.locals scope <+: env'.locals scope := h.filterMap _

/-- Only parameters add to the parameters of a scope. -/
theorem parameters_declared (hds : ∀ q, .param q ∉ ds) :
    (env.declared ds).parameters scope = env.parameters scope := by
  rw [parameters, ofScope_declared, filterMap_append]
  refine (congrArg (_ ++ ·) (filterMap_eq_nil_iff.mpr fun b hb => ?_)).trans (append_nil _)
  split at hb
  · obtain ⟨d, hd, rfl⟩ := mem_map.mp hb
    cases d with
    | param q => exact absurd hd (hds q)
    | _ => rfl
  · cases hb

/-- The parameters of a scope that has just been entered. -/
theorem Ordered.parameters_enter (h : env.Ordered) (qs : List Parameter) :
    (env.enter.declared (qs.map .param)).parameters (env.scope + 1) = qs := by
  rw [parameters, ofScope_declared, h.ofScope_enter, if_pos (show env.scope + 1 =
    env.enter.scope from rfl), nil_append, filterMap_map, filterMap_map]
  exact filterMap_some

end Environment

/-! ### Functions around a function -/

namespace CompiledFunction

/-- A function is another one or stands around it: it declared what the other one sees of
its scope. -/
structure Encloses (a r : CompiledFunction) : Prop where
  inside : a.path <+: r.path
  scope : a.opened.env.scope = a.path.length + 1
  locals : r.opened.env.locals a.opened.env.scope <+: a.opened.env.locals a.opened.env.scope
  parameters : r.opened.env.parameters a.opened.env.scope = a.function.parameters

end CompiledFunction

namespace Declares

variable {path : List Nat} {k : Nat} {ds : List Decl} {p p' : Progress}
  {rs : List CompiledFunction}

/-- Local declarations add no parameters. -/
theorem parameters_eq (h : Declares path k ds p p' rs) (hp : p.Settled) (scope : Int) :
    p'.env.parameters scope = p.env.parameters scope := by
  induction h with
  | nil => rfl
  | vars hvars _ ih =>
    rw [ih (declareVariables_settled hp hvars), (declareVariables_ok hvars).env_eq]
    exact parameters_declared (by simp)
  | forward hheader hintroduce _ ih =>
    obtain ⟨serial, functions, hdeclare, -⟩ := introduce_cases hintroduce
    rw [ih (introduce_settled hp hheader hintroduce),
      eq_declared hdeclare]
    exact parameters_declared (by simp)
  | function hpath hintroduce hopen inner hcloses _ _ ih =>
    obtain ⟨serial, functions, hdeclare, -⟩ := introduce_cases hintroduce
    have haround := around hp hintroduce hopen inner hcloses
    rw [ih haround.closed, haround.env_eq, eq_declared hdeclare]
    exact parameters_declared (by simp)

/-- What a function among local declarations sees of the scopes around it, of which the
innermost is that of the declarations. -/
structure Nested (path : List Nat) (p p' : Progress) (rs : List CompiledFunction)
    (r : CompiledFunction) : Prop where
  inside : path <+: r.path
  scope : r.opened.env.scope = r.path.length + 1
  seen : ∀ scope ≤ p.env.scope, r.opened.env.ofScope scope <+: p'.env.ofScope scope
  parameters : ∀ scope ≤ p.env.scope, r.opened.env.parameters scope = p.env.parameters scope
  enclosed : ∀ n, path.length < n → n ≤ r.path.length →
    ∃ a ∈ rs, a.path = r.path.take n ∧ a.Encloses r

/-- Declarations in front that are not of parameters make no difference. -/
theorem Nested.of_declared {p1 : Progress} {r : CompiledFunction} (h : Nested path p1 p' rs r)
    {added : List Declaration} (henv : p1.env = p.env.declared added)
    (hadded : ∀ q, .param q ∉ added) {rs' : List CompiledFunction} (hrs : rs ⊆ rs') :
    Nested path p p' rs' r := by
  have hscope : p1.env.scope = p.env.scope := by rw [henv, scope_declared]
  refine ⟨h.inside, h.scope, ?_, ?_, ?_⟩
  · rw [← hscope]
    exact h.seen
  · intro scope hle
    rw [h.parameters scope (hscope ▸ hle), henv, parameters_declared hadded]
  · intro n hlt hle
    obtain ⟨a, ha, hpath, hencloses⟩ := h.enclosed n hlt hle
    exact ⟨a, hrs ha, hpath, hencloses⟩

section Around

variable {r : CompiledFunction} {p1 p2 p3 : Progress}

theorem Around.scope_eq (h : Around r p1 p2 p3) :
    p2.env.scope = p1.env.scope + 1 ∧ r.opened.env.scope = p1.env.scope + 1 := by
  obtain ⟨added, hopened⟩ := h.opened_env
  rw [hopened, h.redeclares.env_eq]
  exact ⟨rfl, rfl⟩

/-- The scopes around a function are those with which it was introduced. -/
theorem Around.ofScope_eq (h : Around r p1 p2 p3) (hle : scope ≤ p1.env.scope) :
    p2.env.ofScope scope = p1.env.ofScope scope ∧
      r.opened.env.ofScope scope = p1.env.ofScope scope := by
  obtain ⟨added, hopened⟩ := h.opened_env
  have hne : scope ≠ p2.env.scope := by
    rw [h.scope_eq.1]
    omega
  have houter : p2.env.ofScope scope = p1.env.ofScope scope := by
    rw [h.redeclares.env_eq] at hne ⊢
    exact ofScope_declared_of_ne hne
  exact ⟨houter, by rw [hopened, ofScope_declared_of_ne hne, houter]⟩

theorem Around.encloses_self (h : Around r p1 p2 p3)
    (inner : Declares r.path 0 r.locals p2 r.opened rs)
    (hscope : p1.env.scope + 1 = r.path.length + 1) : r.Encloses r where
  inside := prefix_rfl
  scope := h.scope_eq.2.trans hscope
  locals := prefix_rfl
  parameters := by
    rw [inner.parameters_eq h.entered, h.scope_eq.2, h.redeclares.env_eq]
    exact h.introduced.env.ordered.parameters_enter _

end Around

theorem nested (h : Declares path k ds p p' rs) (hp : p.Settled)
    (hscope : p.env.scope = path.length + 1) : ∀ r ∈ rs, Nested path p p' rs r := by
  induction h with
  | nil => exact forall_mem_nil _
  | vars hvars _ ih =>
    have henv := (declareVariables_ok hvars).env_eq
    intro r hr
    refine (ih (declareVariables_settled hp hvars) ?_ r hr).of_declared henv (by simp)
      (refl _)
    rw [henv, scope_declared, hscope]
  | forward hheader hintroduce _ ih =>
    obtain ⟨serial, functions, hdeclare, -⟩ := introduce_cases hintroduce
    have henv := eq_declared hdeclare
    intro r hr
    refine (ih (introduce_settled hp hheader hintroduce)
      ?_ r hr).of_declared henv (by simp) (refl _)
    rw [henv, scope_declared, hscope]
  | @function path k r ds p p1 p2 p3 p' rs rs' hpath hintroduce hopen inner hcloses rest ihinner
    ihrest =>
    obtain ⟨serial, functions, hdeclare, -⟩ := introduce_cases hintroduce
    have henv := eq_declared hdeclare
    have hscope1 : p1.env.scope = path.length + 1 := by
      rw [henv, scope_declared, hscope]
    have hlength : r.path.length = path.length + 1 := by rw [hpath, length_append]; rfl
    have haround := around hp hintroduce hopen inner hcloses
    have hself := haround.encloses_self inner (by rw [hscope1, hlength]; rfl)
    obtain ⟨hscope2, hscope3⟩ := haround.scope_eq
    obtain ⟨added, hrest⟩ := rest.env_eq haround.closed
    have hseen : ∀ scope ≤ p1.env.scope, r.opened.env.ofScope scope <+: p'.env.ofScope scope := by
      intro scope hle
      rw [(haround.ofScope_eq hle).2, hrest, haround.env_eq]
      exact ofScope_prefix_declared ..
    have hparameters : ∀ scope ≤ p1.env.scope,
        p2.env.parameters scope = p1.env.parameters scope := fun scope hle =>
      parameters_congr (haround.ofScope_eq hle).1
    have hr : r ∈ rs ++ r :: rs' := by simp
    -- the function itself, those inside it, and those after it
    have hthis : Nested path p1 p' (rs ++ r :: rs') r := by
      refine ⟨⟨[k], hpath.symm⟩, hself.scope, hseen, fun scope hle => ?_, fun n hlt hle => ?_⟩
      · rw [inner.parameters_eq haround.entered, hparameters scope hle]
      · obtain rfl : n = r.path.length := by omega
        exact ⟨r, hr, take_length.symm, hself⟩
    have hinner : ∀ x ∈ rs, Nested path p1 p' (rs ++ r :: rs') x := by
      intro x hx
      have hnested := ihinner haround.entered (by rw [hscope2, ← hscope3, hself.scope]) x hx
      refine ⟨hthis.inside.trans hnested.inside, hnested.scope, fun scope hle => ?_,
        fun scope hle => ?_, fun n hlt hle => ?_⟩
      · exact (hnested.seen scope (by omega)).trans (hseen scope hle)
      · rw [hnested.parameters scope (by omega), hparameters scope hle]
      · by_cases hn : n = r.path.length
        · refine ⟨r, hr, ?_, hnested.inside, hself.scope, ?_, ?_⟩
          · rw [hn]
            exact prefix_iff_eq_take.mp hnested.inside
          · exact locals_prefix (hnested.seen _ (by omega))
          · rw [hnested.parameters _ (by omega), ← inner.parameters_eq haround.entered,
              hself.parameters]
        · obtain ⟨a, ha, hpath, hencloses⟩ := hnested.enclosed n (by omega) hle
          exact ⟨a, mem_append_left _ ha, hpath, hencloses⟩
    have hlater : ∀ x ∈ rs', Nested path p1 p' (rs ++ r :: rs') x := by
      intro x hx
      have hnested := ihrest haround.closed (by rw [haround.env_eq, hscope1]) x hx
      refine hnested.of_declared (show p3.env = p1.env.declared [] from haround.env_eq) nofun ?_
      exact List.Subset.trans (subset_cons_self r rs') (subset_append_right rs _)
    intro x hx
    refine Nested.of_declared ?_ henv (by simp) (refl _)
    rcases mem_append.mp hx with hx | hx
    · exact hinner x hx
    rcases mem_cons.mp hx with rfl | hx
    · exact hthis
    · exact hlater x hx

end Declares

/-! ### Programs -/

/-- The scopes in which a program is declared hold functions only. -/
theorem Environment.fn_of_mem_ofScope_ofProgram {f : FunctionDecl}
    (hb : b ∈ (ofProgram f).ofScope scope) : ∃ g, b.declaration = .fn g := by
  have hmem : b ∈ (standard.enter.declared [.fn f]).bindings :=
    (mem_filter.mp (mem_reverse.mp hb)).1
  rcases mem_cons.mp hmem with rfl | hmem
  · exact ⟨f, rfl⟩
  · have hstandard : ∀ b ∈ standard.bindings, ∃ g ∈ b.function?, b.declaration = .fn g := by decide
    obtain ⟨g, -, hg⟩ := hstandard b hmem
    exact ⟨g, hg⟩

namespace Outermost

variable {r : CompiledFunction} {p1 p2 p : Progress} {rs : List CompiledFunction}

theorem scope_eq (h : Outermost r p1 p2 p) : p1.env.scope = 1 := by
  rw [h.env]
  rfl

theorem encloses_self (h : Outermost r p1 p2 p) (inner : Declares [] 0 r.locals p1 r.opened rs) :
    r.Encloses r := by
  obtain ⟨added, hadded⟩ := inner.env_eq h.settled
  have hscope : r.opened.env.scope = 1 := by
    rw [hadded, scope_declared, h.scope_eq]
  refine ⟨prefix_rfl, by rw [hscope, h.path]; rfl, prefix_rfl, ?_⟩
  rw [inner.parameters_eq h.settled, hscope, h.parameters, h.env]
  have hordered : (standard.enter.declared [.fn r.function]).Ordered :=
    Ordered.declared (Ordered.enter ⟨by decide, by decide⟩) _
  exact hordered.parameters_enter []

end Outermost

namespace Compiles

variable {tree : Decl} {p : Progress} {rs : List CompiledFunction} {r : CompiledFunction}

variable (h : Compiles tree p rs) (hr : r ∈ rs)

include h hr

/-- Every scope that a function sees belongs to a function around it or to the function. -/
theorem encloses {n : Nat} (hn : n ≤ r.path.length) :
    ∃ a ∈ rs, a.path = r.path.take n ∧ a.Encloses r := by
  obtain ⟨r0, p1, p2, inner, -, rfl, hinner, houter⟩ := h.outermost
  have hself := houter.encloses_self hinner
  have hr0 : r0 ∈ inner ++ [r0] := mem_append_right _ (mem_singleton_self r0)
  rcases mem_append.mp hr with hr | hr
  · have hnested := hinner.nested houter.settled (by rw [houter.scope_eq]; rfl) r hr
    cases n with
    | zero =>
      have hscope : r0.opened.env.scope = p1.env.scope := by
        rw [hself.scope, houter.path, houter.scope_eq]
        rfl
      refine ⟨r0, hr0, by rw [houter.path, take_zero], by rw [houter.path]; exact nil_prefix,
        hself.scope, ?_, ?_⟩
      · exact locals_prefix (hnested.seen _ (Int.le_of_eq hscope))
      · rw [hnested.parameters _ (Int.le_of_eq hscope), ← hinner.parameters_eq houter.settled,
        hself.parameters]
    | succ n =>
      obtain ⟨a, ha, hpath, hencloses⟩ := hnested.enclosed (n + 1) (Nat.succ_pos n) hn
      exact ⟨a, mem_append_left _ ha, hpath, hencloses⟩
  · obtain rfl := mem_singleton.mp hr
    exact ⟨r, hr0, by rw [houter.path, take_nil], hself⟩

/-- The scope of a function is as deep as its path is long. -/
theorem scope_eq : r.opened.env.scope = r.path.length + 1 := by
  obtain ⟨r0, p1, p2, inner, -, rfl, hinner, houter⟩ := h.outermost
  rcases mem_append.mp hr with hr | hr
  · exact (hinner.nested houter.settled (by rw [houter.scope_eq]; rfl) r hr).scope
  · obtain rfl := mem_singleton.mp hr
    exact (houter.encloses_self hinner).scope

/-- Outside of the program there are only functions. -/
theorem scope_pos (hb : b ∈ r.opened.env.bindings)
    (hfn : ∀ f, b.declaration ≠ .fn f) : 0 < b.scope := by
  obtain ⟨r0, p1, p2, inner, -, rfl, hinner, houter⟩ := h.outermost
  obtain ⟨added, hadded⟩ := hinner.env_eq houter.settled
  by_contra hle
  have hmem : b ∈ r.opened.env.ofScope b.scope :=
    mem_reverse.mpr (mem_filter.mpr ⟨hb, decide_eq_true rfl⟩)
  have hmem0 : b ∈ r0.opened.env.ofScope b.scope := by
    rcases mem_append.mp hr with hr | hr
    · have hnested := hinner.nested houter.settled (by rw [houter.scope_eq]; rfl) r hr
      exact (hnested.seen _ (by rw [houter.scope_eq]; omega)).subset hmem
    · obtain rfl := mem_singleton.mp hr
      exact hmem
  rw [hadded, ofScope_declared_of_ne (by rw [houter.scope_eq]; omega), houter.env]
    at hmem0
  obtain ⟨g, hg⟩ := fn_of_mem_ofScope_ofProgram hmem0
  exact hfn g hg

end Compiles

end BlockLang
