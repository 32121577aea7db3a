import BlockLang.Frame
import BlockLang.Proofs.Quad.WellFormed
import Mathlib.Data.List.Nodup
import Mathlib.Data.List.TakeWhile

/-!
# Scopes that are well kept

The declarations of an environment stand in the order of their scopes, the variables of every scope
fit into a frame, arrays are passed by reference only, and within a scope only functions are
declared more than once. The operations on scopes keep this.
-/

namespace BlockLang

open Binding List List.Pairwise Option

variable {b : Binding} {d : Declaration} {scope : Int} {q : Parameter} {x : String} {v : Variable}

namespace Environment

/-- The declarations of an environment stand in the order of their scopes. -/
structure Ordered (env : Environment) : Prop where
  sorted : env.bindings.Pairwise fun b b' => b'.scope ≤ b.scope
  scope_le : ∀ b ∈ env.bindings, b.scope ≤ env.scope

structure Sound (env : Environment) : Prop extends ordered : Ordered env where
  fits : ∀ scope, (Frame.layout? (env.locals scope) []).isSome
  scalars : env.PassesScalars
  distinct : env.bindings.Pairwise fun b b' => b.scope = b'.scope → b.name = b'.name →
    b.function?.isSome ∧ b'.function?.isSome

/-- An environment with further declarations in its innermost scope. -/
def declared (env : Environment) (ds : List Declaration) : Environment :=
  { env with bindings := (ds.map fun d => ⟨d, env.scope⟩).reverse ++ env.bindings }

variable {env env' : Environment}

theorem declared_append (env : Environment) (ds ds' : List Declaration) :
    env.declared (ds ++ ds') = (env.declared ds).declared ds' := by
  simp [declared]

@[simp] theorem scope_declared (env : Environment) (ds : List Declaration) :
    (env.declared ds).scope = env.scope := rfl

theorem name_of_find? (h : env.find? x = some b) : b.name = x := by
  simpa using find?_some h

theorem mem_ofScope_of_find? (h : env.find? x = some b) : b ∈ env.ofScope b.scope :=
  mem_reverse.mpr (mem_filter.mpr ⟨mem_of_find?_eq_some h, decide_eq_true rfl⟩)

theorem mem_locals_of_find? (h : env.find? x = some ⟨.var v, scope⟩) : v ∈ env.locals scope :=
  mem_filterMap.mpr ⟨_, mem_ofScope_of_find? h, rfl⟩

theorem mem_parameters_of_find? (h : env.find? x = some ⟨.param q, scope⟩) :
    q ∈ env.parameters scope :=
  mem_filterMap.mpr ⟨_, mem_ofScope_of_find? h, rfl⟩

/-! ### Single changes -/

theorem eq_of_declare (h : env.declare d = .ok env') :
    env' = { env with bindings := ⟨d, env.scope⟩ :: env.bindings } := by
  unfold declare at h
  dsimp only at h
  split at h
  · cases h
  · cases h
    rfl

theorem eq_declared (h : env.declare d = .ok env') : env' = env.declared [d] :=
  eq_of_declare h

/-- A name is declared again in its scope only if it is that of a function, which was
declared ahead before and is defined now. -/
theorem ahead_of_declare {e : Declaration} (h : env.declare d = .ok env')
    (hfind : env.find? d.name = some ⟨e, env.scope⟩) :
    ∃ f g, e = .fn f ∧ d = .fn g ∧ f.isDefined = false ∧ g.isDefined = true := by
  have hconflict : conflict? e d = none := by
    unfold declare at h
    rw [hfind] at h
    dsimp only [bind_eq_bind, bind_some] at h
    rw [if_pos rfl] at h
    split at h
    · cases h
    · assumption
  unfold conflict? at hconflict
  split at hconflict
  · split at hconflict
    · rename_i f g hfg
      exact ⟨f, g, rfl, rfl, hfg⟩
    · cases hconflict
  · cases hconflict

theorem eq_of_leave (h : env.leave = .ok env') :
    env' = ⟨env.bindings.dropWhile fun b => b.scope = env.scope, env.scope - 1⟩ := by
  unfold leave at h
  dsimp only at h
  split at h
  · cases h
  · cases h
    congr
    conv_lhs => rw [← takeWhile_append_dropWhile (l := env.bindings)
      (p := fun b => b.scope = env.scope)]
    exact drop_left

theorem locals_declare (h : b.scope ≠ scope) :
    locals { env with bindings := b :: env.bindings } scope = env.locals scope := by
  simp [locals, ofScope, h]

/-- A declaration other than that of a variable adds no variable. -/
theorem locals_declare_of_not_var (h : ∀ v, d ≠ .var v) (s scope : Int) :
    locals { env with bindings := ⟨d, s⟩ :: env.bindings } scope = env.locals scope := by
  by_cases hs : s = scope
  · cases d with
    | var v => exact absurd rfl (h v)
    | _ => simp [locals, ofScope, hs]
  · exact locals_declare hs

theorem locals_leave (h : scope ≠ env.scope) :
    locals ⟨env.bindings.dropWhile fun b => b.scope = env.scope, env.scope - 1⟩ scope =
      env.locals scope := by
  have hnone : (env.bindings.takeWhile fun b => b.scope = env.scope).filter
      (fun b => b.scope = scope) = [] := by
    rw [filter_eq_nil_iff]
    intro b hb hscope
    have hinner := mem_takeWhile_imp hb
    simp only [decide_eq_true_eq] at hinner hscope
    exact h (hscope.symm.trans hinner)
  unfold locals ofScope
  conv_rhs => rw [← takeWhile_append_dropWhile (l := env.bindings)
    (p := fun b => b.scope = env.scope), filter_append, hnone, nil_append]

/-! ### Ordered scopes -/

namespace Ordered

theorem enter (h : env.Ordered) : env.enter.Ordered where
  sorted := h.sorted
  scope_le b hb := Int.le_trans (h.scope_le b hb) (Int.le_add_one (Int.le_refl _))

theorem declare {d : Declaration} (h : env.Ordered) (hdeclare : env.declare d = .ok env') :
    env'.Ordered := by
  obtain rfl := eq_of_declare hdeclare
  exact ⟨pairwise_cons.mpr ⟨fun b hb => h.scope_le b hb, h.sorted⟩,
    forall_mem_cons.mpr ⟨Int.le_refl _, h.scope_le⟩⟩

theorem leave (h : env.Ordered) (hleave : env.leave = .ok env') : env'.Ordered := by
  obtain rfl := eq_of_leave hleave
  have hsub : (env.bindings.dropWhile fun b => b.scope = env.scope).Sublist env.bindings :=
    dropWhile_sublist _
  have hsorted := h.sorted.sublist hsub
  refine ⟨hsorted, ?_⟩
  -- The first binding that stays belongs to an outer scope, and so do those after it.
  cases hdrop : env.bindings.dropWhile fun b => b.scope = env.scope with
  | nil => exact nofun
  | cons first rest =>
    have hne : first.scope ≠ env.scope := by
      have hhead := head?_dropWhile_not (fun b => decide (b.scope = env.scope)) env.bindings
      simpa [hdrop] using hhead
    have hle := h.scope_le first (hsub.subset (hdrop ▸ mem_cons_self))
    have hfirst : first.scope ≤ env.scope - 1 := by omega
    rw [hdrop] at hsorted
    intro b hb
    rcases mem_cons.mp hb with rfl | hb
    · exact hfirst
    · exact Int.le_trans (rel_of_pairwise_cons hsorted hb) hfirst

/-- A name that was declared in the innermost scope stands for what was declared last of
that name there. -/
theorem find?_innermost (h : env.Ordered) (hb : b ∈ env.bindings) (hscope : b.scope = env.scope) :
    ∃ e later earlier, env.find? b.name = some ⟨e, env.scope⟩ ∧
      env.bindings = later ++ ⟨e, env.scope⟩ :: earlier ∧
      b ∈ Binding.mk e env.scope :: earlier := by
  have hsome : (env.find? b.name).isSome := by
    rw [find?, find?_isSome]
    exact ⟨b, hb, decide_eq_true rfl⟩
  obtain ⟨⟨e, scope⟩, hfind⟩ := isSome_iff_exists.mp hsome
  obtain ⟨-, later, earlier, hbindings, hlater⟩ := find?_eq_some_iff_append.mp hfind
  have hmem : b ∈ Binding.mk e scope :: earlier := by
    rw [hbindings] at hb
    refine (mem_append.mp hb).resolve_left fun hb => ?_
    simpa using hlater b hb
  have hsorted := h.sorted
  rw [hbindings] at hsorted
  have hle : b.scope ≤ scope := by
    rcases mem_cons.mp hmem with rfl | hearlier
    · exact Int.le_refl _
    · exact rel_of_pairwise_cons (pairwise_append.mp hsorted).2.1 hearlier
  have hge : scope ≤ env.scope := h.scope_le _ (mem_of_find?_eq_some hfind)
  obtain rfl : scope = env.scope := Int.le_antisymm hge (hscope ▸ hle)
  exact ⟨e, later, earlier, hfind, hbindings, hmem⟩

theorem scope_of_mem_declared {ds : List Declaration} {scope : Int} :
    ∀ b ∈ (ds.map fun d => (⟨d, scope⟩ : Binding)).reverse, decide (b.scope = scope) = true := by
  intro b hb
  obtain ⟨d, -, rfl⟩ := mem_map.mp (mem_reverse.mp hb)
  exact decide_eq_true rfl

/-- Leaving a scope gives what there was before it was entered. -/
theorem eq_of_leave_declared (h : env.Ordered) {ds : List Declaration}
    (hleave : (env.enter.declared ds).leave = .ok env') : env' = env := by
  have houter : env.bindings.dropWhile (fun b => decide (b.scope = env.scope + 1)) =
      env.bindings := by
    apply dropWhile_eq_self_iff.mpr
    intro hlt
    have hle := h.scope_le _ (getElem_mem hlt)
    simp only [decide_eq_true_eq]
    omega
  calc
    env' = ⟨((ds.map fun d => (⟨d, env.scope + 1⟩ : Binding)).reverse ++ env.bindings).dropWhile
        fun b => b.scope = env.scope + 1, env.scope + 1 - 1⟩ := eq_of_leave hleave
    _ = env := by rw [dropWhile_append_of_pos scope_of_mem_declared, houter, Int.add_sub_cancel]

end Ordered

/-! ### Well-kept scopes -/

namespace Sound

theorem empty : ({} : Environment).Sound where
  sorted := nil
  scope_le := nofun
  fits _ := rfl
  scalars := nofun
  distinct := nil

variable (h : env.Sound)

include h

theorem enter : env.enter.Sound where
  ordered := h.ordered.enter
  fits := h.fits
  scalars := h.scalars
  distinct := h.distinct

theorem leave (hleave : env.leave = .ok env') : env'.Sound := by
  have hordered := h.ordered.leave hleave
  obtain rfl := eq_of_leave hleave
  have hsub : (env.bindings.dropWhile fun b => b.scope = env.scope).Sublist env.bindings :=
    dropWhile_sublist _
  have hbelow : ∀ b ∈ env.bindings.dropWhile fun b => b.scope = env.scope,
      b.scope ≤ env.scope - 1 := hordered.scope_le
  refine ⟨hordered, fun scope => ?_, fun b hb => h.scalars b (hsub.subset hb),
    h.distinct.sublist hsub⟩
  by_cases hscope : scope = env.scope
  · have hnone : (env.bindings.dropWhile fun b => b.scope = env.scope).filter
        (fun b => b.scope = scope) = [] := by
      rw [filter_eq_nil_iff]
      intro b hb hb'
      have := hbelow b hb
      simp only [decide_eq_true_eq] at hb'
      omega
    rw [locals, ofScope, hnone]
    rfl
  · rw [locals_leave hscope]
    exact h.fits scope

/-- A new declaration stands in the innermost scope. -/
private theorem declare {d : Declaration} (hdeclare : env.declare d = .ok env')
    (hfits : ∀ scope, (Frame.layout? (env'.locals scope) []).isSome)
    (hscalars : ∀ f, d = .fn f → ∀ q ∈ f.parameters, q.byReference = false →
      q.isOpen = false ∧ q.extents = []) : env'.Sound := by
  have hordered := h.ordered.declare hdeclare
  have hdistinct : ∀ b ∈ env.bindings, env.scope = b.scope → d.name = b.name →
      (Binding.mk d env.scope).function?.isSome ∧ b.function?.isSome := by
    intro b hb hscope hname
    obtain ⟨e, later, earlier, hfind, hbindings, hmem⟩ := h.ordered.find?_innermost hb hscope.symm
    rw [← hname] at hfind
    obtain ⟨f, g, rfl, rfl, -, -⟩ := ahead_of_declare hdeclare hfind
    refine ⟨rfl, ?_⟩
    rcases mem_cons.mp hmem with rfl | hearlier
    · rfl
    · have hdistinct := h.distinct
      rw [hbindings] at hdistinct
      have hboth := rel_of_pairwise_cons (pairwise_append.mp hdistinct).2.1 hearlier
      exact (hboth hscope ((name_of_find? hfind).trans hname)).2
  obtain rfl := eq_of_declare hdeclare
  exact ⟨hordered, hfits,
    forall_mem_cons.mpr ⟨hscalars, h.scalars⟩, pairwise_cons.mpr ⟨hdistinct, h.distinct⟩⟩

theorem declare_param (hdeclare : env.declare (.param q) = .ok env') : env'.Sound := by
  refine h.declare hdeclare (fun scope => ?_) (fun _ hf => by cases hf)
  rw [eq_of_declare hdeclare, locals_declare_of_not_var (fun _ hd => by cases hd)]
  exact h.fits scope

theorem declare_var (hdeclare : env.declare (.var v) = .ok env')
    (hfits : (Frame.layout? (env'.locals env'.scope) []).isSome) : env'.Sound := by
  refine h.declare hdeclare (fun scope => ?_) (fun _ hf => by cases hf)
  obtain rfl := eq_of_declare hdeclare
  by_cases hscope : env.scope = scope
  · exact hscope ▸ hfits
  · rw [locals_declare hscope]
    exact h.fits scope

/-- A function that passes arrays by reference. -/
theorem declare_fn {f : FunctionDecl}
    (hf : ∀ q ∈ f.parameters, q.byReference = false → q.isOpen = false ∧ q.extents = [])
    (hdeclare : env.declare (.fn f) = .ok env') : env'.Sound := by
  refine h.declare hdeclare (fun scope => ?_) fun g hg => ?_
  · rw [eq_of_declare hdeclare, locals_declare_of_not_var (fun _ hd => by cases hd)]
    exact h.fits scope
  · cases hg
    exact hf

/-- Within a scope the declarations of one kind, other than functions, have different
names. -/
private theorem nodup_ofScope (scope : Int) {f : Binding → Option String}
    (hf : ∀ b x, f b = some x → b.name = x ∧ b.function? = none) :
    ((env.ofScope scope).filterMap f).Nodup := by
  rw [ofScope, filterMap_reverse, nodup_reverse]
  have hpairwise : (env.bindings.filter fun b => b.scope = scope).Pairwise fun b b' =>
      b.name = b'.name → b.function?.isSome ∧ b'.function?.isSome := by
    refine (h.distinct.filter _).imp_of_mem fun {b b'} hb hb' hdistinct => hdistinct ?_
    simp only [mem_filter, decide_eq_true_eq] at hb hb'
    rw [hb.2, hb'.2]
  refine hpairwise.filterMap f fun b b' hdistinct x hx y hy hxy => ?_
  obtain ⟨hname, hnone⟩ := hf b x hx
  obtain ⟨hname', -⟩ := hf b' y hy
  have hsome := (hdistinct (by rw [hname, hname', hxy])).1
  rw [hnone] at hsome
  cases hsome

theorem nodup_locals (scope : Int) : ((env.locals scope).map Variable.name).Nodup := by
  rw [locals, map_filterMap]
  refine h.nodup_ofScope scope fun b x hx => ?_
  obtain ⟨d, s⟩ := b
  cases d <;> simp_all [name, Declaration.name, function?]

theorem nodup_parameters (scope : Int) : ((env.parameters scope).map fun q => q.name).Nodup := by
  rw [parameters, map_filterMap]
  refine h.nodup_ofScope scope fun b x hx => ?_
  obtain ⟨d, s⟩ := b
  cases d <;> simp_all [name, Declaration.name, function?]

end Sound

end Environment

end BlockLang
