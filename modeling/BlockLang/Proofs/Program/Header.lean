import BlockLang.Proofs.Linking

/-!
# Functions keep their headers

A function that was declared ahead is defined with the same header in the same scope. So
what a caller sees of a function agrees with the definition that the call leads to: the
result, and the types and modes of the parameters.
-/

namespace BlockLang

open Decl Declares Emit Environment List

variable {f g : FunctionDecl} {label : FunctionLabel} {p1 : Progress} {x : String}

theorem Emit.name_calleeLabel (g : FunctionDecl) (scope : Int) :
    (calleeLabel g scope).name = g.name := by
  unfold calleeLabel
  split <;> rfl

/-- Two functions have the same result and the same kinds of parameters. -/
def FunctionDecl.Agrees (f g : FunctionDecl) : Prop :=
  f.result = g.result ∧ f.parameters.map Parameter.kind = g.parameters.map Parameter.kind

theorem FunctionDecl.Agrees.trans {f g k : FunctionDecl} (h : f.Agrees g) (h' : g.Agrees k) :
    f.Agrees k := ⟨h.1.trans h'.1, h.2.trans h'.2⟩

theorem FunctionDecl.Agrees.symm {f g : FunctionDecl} (h : f.Agrees g) : g.Agrees f :=
  ⟨h.1.symm, h.2.symm⟩

/-- Whether a header belongs to a definition makes no difference. -/
theorem Header.agrees_signature {header : Header} {b b' : Bool} {f' : FunctionDecl}
    (h : header.signature b = .ok f) (h' : header.signature b' = .ok f') : f.Agrees f' := by
  obtain ⟨groups, hgroups, rfl⟩ := exists_groups h
  obtain ⟨groups', hgroups', rfl⟩ := exists_groups h'
  cases hgroups.symm.trans hgroups'
  exact ⟨rfl, rfl⟩

/-- A function is declared again only with the same header. -/
theorem Environment.agrees_of_declare {env env' : Environment} (h : env.declare (.fn f) = .ok env')
    (hfind : env.find? f.name = some ⟨.fn g, env.scope⟩) : f.Agrees g := by
  have hconflict : conflict? (.fn g) (.fn f) = none := by
    have hname : (Declaration.fn f).name = f.name := rfl
    unfold declare at h
    rw [hname, hfind] at h
    dsimp only [Option.bind_eq_bind, Option.bind_some] at h
    rw [if_pos rfl] at h
    split at h
    · cases h
    · assumption
  unfold conflict? at hconflict
  dsimp only at hconflict
  split at hconflict
  · split at hconflict
    · rename_i hsame
      have hsame := of_decide_eq_true hsame
      exact hsame
    · cases hconflict
  · cases hconflict

namespace Decl

/-- A local declaration declares or defines a function. -/
def Announces (d : Decl) (f : FunctionDecl) : Prop :=
  ∃ header b, (d = .forward header ∨ ∃ locals body, d = .function header locals body) ∧
    header.signature b = .ok f

variable {d d' : Decl} {ds : List Decl} {f f' : FunctionDecl}

theorem Announces.agrees (h : d.Announces f) (h' : d.Announces f') :
    f.name = f'.name ∧ f.Agrees f' := by
  obtain ⟨header, b, hd, hf⟩ := h
  obtain ⟨header', b', hd', hf'⟩ := h'
  obtain rfl : header = header' := by
    obtain rfl | ⟨_, _, rfl⟩ := hd
    · obtain hd' | ⟨_, _, hd'⟩ := hd' <;> cases hd'
      rfl
    · obtain hd' | ⟨_, _, hd'⟩ := hd' <;> cases hd'
      rfl
  refine ⟨?_, Header.agrees_signature hf hf'⟩
  rw [(eq_of_signature hf).1, (eq_of_signature hf').1]

theorem not_announces_vars {names : List DeclaredName} {ty : Ty} {extents : List Nat} :
    ¬ (vars names ty extents).Announces f := by
  rintro ⟨header, b, heq | ⟨_, _, heq⟩, -⟩ <;> cases heq

/-- The functions of one name among declarations agree. -/
def Agree (ds : List Decl) : Prop :=
  ∀ d ∈ ds, ∀ d' ∈ ds, ∀ f f', d.Announces f → d'.Announces f' → f.name = f'.name → f.Agrees f'

theorem Agree.cons (h : Agree ds) (hd : d.Announces f)
    (hrest : ∀ d' ∈ ds, ∀ f', d'.Announces f' → f'.name = f.name → f'.Agrees f) :
    Agree (d :: ds) := by
  intro e he e' he' g g' hg hg' hname
  rcases mem_cons.mp he with rfl | hmem
  · have hsame := hg.agrees hd
    rcases mem_cons.mp he' with rfl | hmem'
    · exact (hg.agrees hg').2
    · exact hsame.2.trans (hrest e' hmem' g' hg' (hname.symm.trans hsame.1)).symm
  · rcases mem_cons.mp he' with rfl | hmem'
    · have hsame := hg'.agrees hd
      exact (hrest e hmem g hg (hname.trans hsame.1)).trans hsame.2.symm
    · exact h e hmem e' hmem' g g' hg hg' hname

end Decl

namespace Declares

variable {path : List Nat} {k : Nat} {ds : List Decl} {p p' : Progress}
  {rs : List CompiledFunction}

/-- A function that is introduced agrees with what was declared of it, and it is found
afterwards. -/
theorem find?_introduce (h : introduce f p = .ok label p1)
    (hg : p.env.find? x = some ⟨.fn g, p.env.scope⟩) :
    ∃ g', p1.env.find? x = some ⟨.fn g', p1.env.scope⟩ ∧ g'.Agrees g ∧
      (f.name = x → f.Agrees g) := by
  obtain ⟨serial, functions, hdeclare, -, -, -⟩ := introduce_cases h
  rw [eq_declared hdeclare, find?_declared_singleton]
  by_cases hx : f.name = x
  · have hagrees := agrees_of_declare hdeclare (show p.env.find? f.name = _ by
      rw [hx, hg])
    exact ⟨_, if_pos hx, hagrees, fun _ => hagrees⟩
  · exact ⟨g, (if_neg hx).trans hg, ⟨rfl, rfl⟩, fun h => absurd h hx⟩

/-- A function that has been introduced is found. -/
theorem find?_introduced (h : introduce f p = .ok label p1) :
    ∃ g, p1.env.find? f.name = some ⟨.fn g, p1.env.scope⟩ ∧ g.Agrees f := by
  obtain ⟨serial, functions, hdeclare, -, -, -⟩ := introduce_cases h
  refine ⟨{ f with serial }, ?_, rfl, rfl⟩
  rw [eq_declared hdeclare, find?_declared_singleton]
  exact if_pos rfl

/-- Where a function has been declared, further declarations of its name agree with it. -/
theorem agrees_of_find? (h : Declares path k ds p p' rs) (hp : p.Settled)
    (hg : p.env.find? x = some ⟨.fn g, p.env.scope⟩) {d : Decl} (hd : d ∈ ds) (hf : d.Announces f)
    (hname : f.name = x) : f.Agrees g := by
  induction h generalizing g with
  | nil => cases hd
  | @vars path k owner names ty extents ds p p1 p' rs hvars _ ih =>
    rcases mem_cons.mp hd with rfl | hd
    · exact absurd hf not_announces_vars
    refine ih (declareVariables_settled hp hvars) ?_ hd
    have hfresh : ((names.map fun y =>
        Declaration.var ⟨y.text, y.location, ty, extents⟩).reverse.find?
          fun d => d.name = x) = none := by
      rw [find?_eq_none]
      intro e he hname
      obtain ⟨y, hy, rfl⟩ := mem_map.mp (mem_reverse.mp he)
      exact names_of_declareVariables hvars hg y hy (of_decide_eq_true hname)
    rw [(declareVariables_ok hvars).env_eq, find?_declared, hfresh]
    exact hg
  | forward hheader hintroduce _ ih =>
    obtain ⟨g', hg', hagrees, hsame⟩ := find?_introduce hintroduce hg
    rcases mem_cons.mp hd with rfl | hd
    · have hf' := hf.agrees ⟨_, false, .inl rfl, hheader⟩
      exact hf'.2.trans (hsame (hf'.1.symm.trans hname))
    · exact (ih (introduce_settled hp hheader hintroduce)
        hg' hd).trans hagrees
  | function hpath hintroduce hopen inner hcloses _ _ ihrest =>
    have around := around hp hintroduce hopen inner hcloses
    obtain ⟨g', hg', hagrees, hsame⟩ := find?_introduce hintroduce hg
    rcases mem_cons.mp hd with rfl | hd
    · have hf' := hf.agrees ⟨_, true, .inr ⟨_, _, rfl⟩, hcloses.header⟩
      exact hf'.2.trans (hsame (hf'.1.symm.trans hname))
    · rw [← around.env_eq] at hg'
      exact (ihrest around.closed hg' hd).trans hagrees

/-- Local declarations of one name agree. -/
theorem agree (h : Declares path k ds p p' rs) (hp : p.Settled) : Agree ds := by
  induction h with
  | nil => exact fun d hd => nomatch hd
  | @vars path k owner names ty extents ds p p1 p' rs hvars _ ih =>
    have hmem : ∀ {e f}, e ∈ Decl.vars names ty extents :: ds → e.Announces f → e ∈ ds :=
      fun he hf => (mem_cons.mp he).resolve_left fun heq =>
        not_announces_vars (heq ▸ hf)
    intro d hd d' hd' f f' hf hf' hname
    exact ih (declareVariables_settled hp hvars) d (hmem hd hf) d' (hmem hd' hf') f f' hf hf'
      hname
  | forward hheader hintroduce rest ih =>
    have hsettled := introduce_settled hp hheader hintroduce
    obtain ⟨g, hg, hagrees⟩ := find?_introduced hintroduce
    exact (ih hsettled).cons ⟨_, false, .inl rfl, hheader⟩ fun d' hd' f' hf' hname =>
      (rest.agrees_of_find? hsettled hg hd' hf' hname).trans hagrees
  | function hpath hintroduce hopen inner hcloses rest _ ihrest =>
    have around := around hp hintroduce hopen inner hcloses
    obtain ⟨g, hg, hagrees⟩ := find?_introduced hintroduce
    rw [← around.env_eq] at hg
    exact (ihrest around.closed).cons ⟨_, true, .inr ⟨_, _, rfl⟩, hcloses.header⟩
      fun d' hd' f' hf' hname =>
        (rest.agrees_of_find? around.closed hg hd' hf' hname).trans hagrees

/-- The declarations in a function agree, and the label of a function names it. -/
theorem agree_locals (h : Declares path k ds p p' rs) (hp : p.Settled) :
    ∀ r ∈ rs, Agree r.locals ∧ r.label.name = r.function.name := by
  induction h with
  | nil => exact forall_mem_nil _
  | vars hvars _ ih => exact ih (declareVariables_settled hp hvars)
  | forward hheader hintroduce _ ih =>
    exact ih (introduce_settled hp hheader hintroduce)
  | function hpath hintroduce hopen inner hcloses _ ihinner ihrest =>
    have around := around hp hintroduce hopen inner hcloses
    obtain ⟨serial, functions, -, hlabel, -, -⟩ := introduce_cases hintroduce
    refine forall_mem_append.mpr ⟨ihinner around.entered, forall_mem_cons.mpr
      ⟨⟨inner.agree around.entered, by rw [hlabel]⟩, ihrest around.closed⟩⟩

end Declares

/-- A call that names a function of the program is a call of its tree. -/
theorem CompiledFunction.Closes.exists_called {r : CompiledFunction} {p : Progress}
    (h : r.Closes p) {i : Nat} {q : Quad} {label : FunctionLabel} (hi : r.first ≤ i)
    (hq : r.closed.code.quads[i]? = some q) (hlabel : q.callee? = some label) :
    ∃ x ∈ Stmt.calledAll r.body, ∃ f scope, r.opened.env.find? x = some ⟨.fn f, scope⟩ ∧
      label = Emit.calleeLabel f scope := by
  have hmem : label ∈ (r.closed.code.quads.toList.drop r.first).filterMap Quad.callee? := by
    refine mem_filterMap.mpr ⟨q, mem_iff_getElem?.mpr ⟨i - r.first, ?_⟩, hlabel⟩
    rw [getElem?_drop, Array.getElem?_toList, Nat.add_sub_cancel' hi, hq]
  obtain ⟨x, hx, hcallee⟩ := exists_of_forall₂ h.callees_quads hmem
  exact ⟨x, hx, Environment.find?_of_callee? hcallee⟩

/-- A function that is called over a number of levels: it is the program, beyond all
functions around the caller, or it is declared in the function that many levels out. -/
def CompiledFunction.Sees (r callee : CompiledFunction) (hops : Int) : Prop :=
  (callee.path = [] ∧ hops = r.path.length + 1) ∨
    ∃ n j : Nat, hops = n ∧ n ≤ r.path.length ∧
      callee.path = r.path.take (r.path.length - n) ++ [j]

namespace Compiles

variable {tree : Decl} {p : Progress} {rs : List CompiledFunction} {r callee : CompiledFunction}

variable (h : Compiles tree p rs) (htext : tree.InText) (hr : r ∈ rs)

include h htext hr

omit htext in
theorem agree_locals : Agree r.locals ∧ r.label.name = r.function.name := by
  obtain ⟨r0, p1, p2, inner, -, rfl, hinner, houter⟩ := h.outermost
  rcases mem_append.mp hr with hr | hr
  · exact hinner.agree_locals houter.settled r hr
  · obtain rfl := mem_singleton.mp hr
    exact ⟨hinner.agree houter.settled, by rw [houter.label]⟩

/-- A function stands at its path in the tree. -/
theorem subtree?_path : tree.subtree? r.path = some r.definition := by
  obtain ⟨d, -, hrealizes⟩ := h.exists_definition htext hr
  exact hrealizes.subtree

/-- What a caller sees of a function agrees with its definition. -/
theorem agrees_target (hcallee : callee ∈ rs) {scope depth : Int}
    (hfind : r.opened.env.find? x = some ⟨.fn g, scope⟩)
    (hlabel : callee.label = calleeLabel g scope) (hdepth : callee.label.depth = some depth) :
    g.Agrees callee.function := by
  obtain ⟨bound, hintroduces⟩ := h.exists_introduces htext hr hfind
  obtain ⟨p', hcloses⟩ := h.closes callee hcallee
  cases hintroduces with
  | @function path d header _ _ target hat hd hf hx htarget hlabel' hdefined =>
    obtain rfl : callee = target :=
      inj_on_of_nodup_map h.labelled.1 hcallee htarget (hlabel.trans hlabel')
    have hdefinition := h.subtree?_path htext hcallee
    have hannounces : callee.definition.Announces callee.function :=
      ⟨_, true, .inr ⟨_, _, rfl⟩, hcloses.header⟩
    have hannounces' : d.Announces { g with serial := 0 } := ⟨_, _, hd, hf⟩
    rcases defined?_cases hdefined with ⟨rfl, hnil⟩ | ⟨parent, k, j, rfl, hpath⟩
    · -- the program is declared by its definition
      rw [hnil] at hdefinition
      cases hat.symm.trans hdefinition
      exact (hannounces'.agrees hannounces).2
    · -- both stand among the declarations of one function
      obtain ⟨a, ha, hparent, -⟩ := h.encloses hcallee (n := parent.length) (by simp [hpath])
      rw [hpath, take_left] at hparent
      have hlocals := h.subtree?_path htext ha
      rw [hparent] at hlocals
      rw [subtree?_append_singleton hlocals] at hat
      rw [hpath, subtree?_append_singleton hlocals] at hdefinition
      have hname : g.name = callee.function.name := by
        rw [← (h.agree_locals hcallee).2, hlabel, name_calleeLabel]
      exact (h.agree_locals ha).1 d (mem_of_getElem? hat) _ (mem_of_getElem? hdefinition)
        { g with serial := 0 } _ hannounces' hannounces hname
  | routine hf =>
    rw [hlabel, calleeLabel_standard hf] at hdepth
    cases hdepth

/-! ### The functions that calls lead to -/

variable {i : Nat} {q : Quad} {depth : Int}

/-- A call leads to a function of the program, which was declared as far out as its label
says. -/
theorem exists_target (hi : r.first ≤ i) (hq : r.closed.code.quads[i]? = some q)
    (hlabel : q.callee? = some label) (hdepth : label.depth = some depth) :
    ∃ callee ∈ rs, callee.label = label ∧ r.Sees callee (r.site.hops depth) := by
  obtain ⟨p', hcloses⟩ := h.closes r hr
  obtain ⟨x, -, f, scope, hfind, rfl⟩ := hcloses.exists_called hi hq hlabel
  obtain rfl := Emit.eq_of_depth_calleeLabel hdepth
  -- the definition in the tree that the caller realizes
  obtain ⟨d, hd, hrealizes⟩ := h.exists_definition htext hr
  have hpath := hrealizes.path
  obtain ⟨hops, bound, hfound, hscope, hintroduces⟩ := hrealizes.visible.exists_binding hfind
  have hhops : r.site.hops depth = hops := by
    have hscope : depth + (hops : Int) = r.opened.env.scope := hscope
    change r.opened.env.scope - depth = hops
    omega
  rw [hhops]
  cases hintroduces with
  | @function target _ _ _ _ callee hat hkind hf hx hcallee hlabel' hdefined =>
    refine ⟨callee, hcallee, hlabel'.symm, ?_⟩
    obtain ⟨rfl, rfl⟩ | ⟨level, j, hlevel, rfl⟩ := binding?_function hfound
    · exact .inl ⟨(Option.some_inj.mp hdefined).symm, by rw [Decl.length_levels hd, hpath]; rfl⟩
    · obtain ⟨hle, hlevelpath⟩ := Decl.path_level hd hlevel
      rw [hpath] at hle hlevelpath
      obtain ⟨hnil, -⟩ | ⟨parent, k, i, hparent, hcalleepath⟩ := defined?_cases hdefined
      · simp at hnil
      · obtain ⟨rfl, -⟩ := append_inj' hparent rfl
        exact .inr ⟨hops, i, rfl, hle, by rw [hcalleepath, hlevelpath]⟩
  | routine hf =>
    rw [Emit.calleeLabel_standard hf] at hdepth
    cases hdepth

/-- What is called and is no standard routine is a function of the program. -/
theorem exists_callee {scope : Int} (hfind : r.opened.env.find? x = some ⟨.fn g, scope⟩)
    (hstandard : ∀ f ∈ FunctionDecl.standard, f.name ≠ x) :
    ∃ callee ∈ rs, callee.label = calleeLabel g scope ∧ callee.header.name = x := by
  obtain ⟨bound, hintroduces⟩ := h.exists_introduces htext hr hfind
  have hname : g.name = x := name_of_find? hfind
  cases hintroduces with
  | @function _ _ _ _ _ callee hat hd hf hx hcallee hlabel =>
    refine ⟨callee, hcallee, hlabel.symm, ?_⟩
    obtain ⟨p', hcloses⟩ := h.closes callee hcallee
    rw [← (eq_of_signature hcloses.header).1, ← (h.agree_locals hcallee).2, ← hlabel,
      name_calleeLabel, hname]
  | routine hf => exact absurd hname (hstandard g hf)

/-- A call in a body has a quad that names the function. -/
theorem exists_quad_of_called (hx : x ∈ Stmt.calledAll r.body)
    (hstandard : ∀ f ∈ FunctionDecl.standard, f.name ≠ x) :
    ∃ callee ∈ rs, callee.header.name = x ∧ ∃ i q depth, r.first ≤ i ∧
      r.closed.code.quads[i]? = some q ∧ q.callee? = some callee.label ∧
      callee.label.depth = some depth := by
  obtain ⟨p', hcloses⟩ := h.closes r hr
  obtain ⟨label, hmem, hcalled⟩ := exists_of_forall₂ hcloses.callees_quads.flip hx
  obtain ⟨q, hq, hlabel⟩ := mem_filterMap.mp hmem
  obtain ⟨i, hi⟩ := mem_iff_getElem?.mp hq
  rw [getElem?_drop, Array.getElem?_toList] at hi
  obtain ⟨g, scope, hfind, rfl⟩ := find?_of_callee? hcalled
  obtain ⟨callee, hcallee, hlabel', hname⟩ := h.exists_callee htext hr hfind hstandard
  obtain ⟨depth, hdepth, -⟩ := h.labelled.2 callee hcallee
  exact ⟨callee, hcallee, hname, _, q, depth, Nat.le_add_right _ i, hi, hlabel' ▸ hlabel, hdepth⟩

/-- The function that a call leads to was declared as far out as its label says. -/
theorem sees_target (hi : r.first ≤ i) (hq : r.closed.code.quads[i]? = some q)
    (hlabel : q.callee? = some label) (hdepth : label.depth = some depth) (hcallee : callee ∈ rs)
    (hcalled : callee.label = label) : r.Sees callee (r.site.hops depth) := by
  obtain ⟨target, htarget, hlabel', hsees⟩ := h.exists_target htext hr hi hq hlabel hdepth
  rwa [inj_on_of_nodup_map h.labelled.1 hcallee htarget (hcalled.trans hlabel'.symm)]

end Compiles

end BlockLang
