import BlockLang.Proofs.Processor.Quad
import BlockLang.Proofs.Program.Binding

/-!
# Where the variables of a program are

A variable lies in the frame of the function that declares it. A function inside is lowered before
that frame is complete. Still it finds the variable, because what is declared later does not move
what has been placed before.
-/

namespace BlockLang

open List Option

namespace CompiledFunction

variable (all : List CompiledFunction) (r : CompiledFunction)

/-- The function that a scope belongs to, which is that of the function or one around it. -/
def owner? (scope : Int) : Option CompiledFunction :=
  all.find? fun a => a.path = r.path.take (scope - 1).toNat

/-- The offsets of what a function can name. -/
def layout : Layout where
  code := r.closed.code
  env := r.opened.env
  slot? scope x := (r.owner? all scope).bind fun a => a.frame.variableOffset? x
  parameters scope := ((r.owner? all scope).map fun a => a.function.parameters).getD []
  temp? := r.frame.tempOffset?

end CompiledFunction

/-! ### Layouts with the same cells -/

namespace Layout

/-- Two layouts differ in the offsets of names that cannot be seen at most. -/
structure Agrees (l l' : Layout) : Prop where
  code : l.code = l'.code
  env : l.env = l'.env
  slot : ∀ x v scope, l.env.find? x = some ⟨.var v, scope⟩ → l.slot? scope x = l'.slot? scope x
  parameters : ∀ x q scope, l.env.find? x = some ⟨.param q, scope⟩ →
    l.parameters scope = l'.parameters scope
  temp : l.temp? = l'.temp?

namespace Agrees

variable {l l' : Layout} (h : l.Agrees l') (base : Nat → Word) (s : Store)

include h

theorem tempAddress?_eq : l.tempAddress? base = l'.tempAddress? base := by
  funext n
  rw [tempAddress?, tempAddress?, h.temp]

theorem named?_eq (x : String) : l.named? base s x = l'.named? base s x := by
  cases hb : l.env.find? x with
  | none => rw [named?, named?, ← h.env, hb]
  | some b =>
    obtain ⟨d, scope⟩ := b
    cases d with
    | var v =>
      rw [named?_var hb, named?_var (h.env ▸ hb), h.slot x v scope hb, levels, levels, h.env]
    | param q =>
      rw [named?_param hb, named?_param (h.env ▸ hb), argumentAddress?, argumentAddress?,
        h.parameters x q scope hb, levels, levels, h.env]
    | fn f => rw [named?, named?, ← h.env, hb]

theorem place?_eq : l.place? base s = l'.place? base s := by
  funext o
  cases o with
  | name x => exact h.named?_eq base s x
  | temp n => rw [place?, place?, h.tempAddress?_eq, h.code]
  | cell n => rw [place?, place?, h.tempAddress?_eq, h.code]
  | _ => rfl

theorem value?_eq : l.value? base s = l'.value? base s := by
  funext o
  simp only [value?, h.place?_eq]

variable (image : Image) (literals : List String)

theorem address?_eq : l.address? base s image literals = l'.address? base s image literals := by
  funext o
  simp only [address?, h.place?_eq]

theorem effect?_eq (q : Quad) (i : Nat) :
    l.effect? base s image literals q i = l'.effect? base s image literals q i := by
  simp only [effect?, h.place?_eq, h.value?_eq, h.address?_eq, h.tempAddress?_eq, h.code]

end Agrees

end Layout

/-! ### Programs -/

namespace Compiles

variable {tree : Decl} {p : Progress} {rs : List CompiledFunction} {r : CompiledFunction}

variable (h : Compiles tree p rs)

include h

theorem reaching (hr : r ∈ rs) : r.site.Reaching r.path.length := by
  intro x b hb hfn
  have hmem := mem_of_find?_eq_some hb
  have hpos := h.scope_pos hr hmem hfn
  have hle := (h.settled r hr).env.scope_le b hmem
  have hscope := h.scope_eq hr
  rw [FunctionSite.hops]
  change 0 ≤ r.opened.env.scope - b.scope ∧ (r.opened.env.scope - b.scope).toNat ≤ r.path.length
  omega

/-- A function is found by its path. -/
theorem eq_of_path_eq (htext : tree.InText) {a b : CompiledFunction} (ha : a ∈ rs) (hb : b ∈ rs)
    (hpath : a.path = b.path) : a = b :=
  inj_on_of_nodup_map (h.nodup_paths htext) ha hb hpath

/-- The scopes of variables and parameters belong to functions. -/
theorem exists_owner (htext : tree.InText) (hr : r ∈ rs) {b : Binding}
    (hb : b ∈ r.opened.env.bindings) (hfn : ∀ f, b.declaration ≠ .fn f) :
    ∃ a ∈ rs, r.owner? rs b.scope = some a ∧ a.opened.env.scope = b.scope ∧ a.Encloses r := by
  have hpos := h.scope_pos hr hb hfn
  have hle := (h.settled r hr).env.scope_le b hb
  have hscope := h.scope_eq hr
  have hdepth : (b.scope - 1).toNat ≤ r.path.length := by omega
  obtain ⟨a, ha, hpath, hencloses⟩ := h.encloses hr hdepth
  refine ⟨a, ha, ?_, ?_, hencloses⟩
  · have hsome : (r.owner? rs b.scope).isSome :=
      find?_isSome.mpr ⟨a, ha, decide_eq_true hpath⟩
    obtain ⟨a', ha'⟩ := isSome_iff_exists.mp hsome
    have hpath' : a'.path = r.path.take (b.scope - 1).toNat := by simpa using find?_some ha'
    rw [ha', h.eq_of_path_eq htext (mem_of_find?_eq_some ha') ha (hpath'.trans hpath.symm)]
  · rw [hencloses.scope, hpath, length_take]
    omega

/-- The variable of a function around lies where that function has placed it. -/
theorem variableOffset?_eq (htext : tree.InText) (hr : r ∈ rs) {a : CompiledFunction} (ha : a ∈ rs)
    (hencloses : a.Encloses r) {v : Variable} {x : String}
    (hx : r.opened.env.find? x = some ⟨.var v, a.opened.env.scope⟩) :
    Lower.variableOffset? r.site a.opened.env.scope x = a.frame.variableOffset? x := by
  unfold Lower.variableOffset?
  split
  · rename_i hhops
    -- a function around with a path of the same length is the function itself
    have hlength : a.path.length = r.path.length := by
      have hscope := h.scope_eq hr
      have hscope' := hencloses.scope
      change r.opened.env.scope - a.opened.env.scope = 0 at hhops
      omega
    rw [h.eq_of_path_eq htext ha hr (hencloses.inside.eq_of_length hlength)]
    rfl
  · obtain ⟨frame, hframe⟩ := isSome_iff_exists.mp
      ((h.settled r hr).env.fits a.opened.env.scope)
    obtain ⟨p', hcloses⟩ := h.closes a ha
    obtain ⟨more, hmore⟩ := hencloses.locals
    have hlayout := hcloses.layout
    have hnodup := (h.settled a ha).env.nodup_locals a.opened.env.scope
    rw [← hmore] at hlayout hnodup
    have hmem : x ∈ (r.opened.env.locals a.opened.env.scope).map Variable.name :=
      mem_map.mpr ⟨v, Environment.mem_locals_of_find? hx, Environment.name_of_find? hx⟩
    have hfresh : x ∉ more.map Variable.name := by
      rw [map_append] at hnodup
      exact (disjoint_of_nodup_append hnodup) hmem
    rw [Frame.variableOffset?_append hframe hlayout hfresh]
    exact congrArg (bind · fun f => f.variableOffset? x) hframe

/-- Lowering works with the offsets that variables have in their frames. -/
theorem layout_agrees (htext : tree.InText) (hr : r ∈ rs) : (r.layout rs).Agrees r.site.layout where
  code := rfl
  env := rfl
  slot x v scope hx := by
    obtain ⟨a, ha, howner, rfl, hencloses⟩ :=
      h.exists_owner htext hr (mem_of_find?_eq_some hx) nofun
    exact (congrArg (bind · _) howner).trans
      (h.variableOffset?_eq htext hr ha hencloses hx).symm
  parameters x q scope hx := by
    obtain ⟨a, ha, howner, rfl, hencloses⟩ :=
      h.exists_owner htext hr (mem_of_find?_eq_some hx) nofun
    exact (congrArg (fun o => (Option.map _ o).getD []) howner).trans hencloses.parameters.symm
  temp := rfl

end Compiles

end BlockLang
