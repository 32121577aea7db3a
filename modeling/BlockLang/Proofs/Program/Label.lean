import BlockLang.Proofs.Program.Derivation

/-!
# Labels of functions

Functions of one name and depth are told apart by serial numbers. A function that is introduced is
counted, unless it fulfils a forward declaration: then it takes the number of that declaration. So
no two functions of a program have the same label.
-/

namespace BlockLang

open CompiledFunction Emit Environment List Option

variable {l : FunctionLabel} {p1 p2 : Progress}

namespace Progress

/-- The number of functions of a name and a depth so far. -/
def count (p : Progress) (x : String) (depth : Int) : Nat := p.functions.count (x, depth)

/-- The serial numbers of all functions outside of the standard library have been
counted. -/
def Counted (p : Progress) : Prop :=
  ∀ b ∈ p.env.bindings, ∀ f, b.declaration = .fn f → 0 ≤ b.scope → f.serial < p.count f.name b.scope

end Progress

namespace FunctionLabel

/-- A label whose serial number is counted between two moments. -/
def Fresh (p p' : Progress) (l : FunctionLabel) : Prop :=
  ∃ depth, l.depth = some depth ∧ p.count l.name depth ≤ l.serial ∧
    l.serial < p'.count l.name depth

/-- The label of a function that is declared in the innermost scope and not defined
there. -/
def Awaited (env : Environment) (l : FunctionLabel) : Prop :=
  ∃ f, env.find? l.name = some ⟨.fn f, env.scope⟩ ∧ f.isDefined = false ∧
    l = ⟨f.name, some env.scope, f.serial⟩

theorem Fresh.mono {p p' : Progress} (h : l.Fresh p1 p2)
    (hle : ∀ x depth, p.count x depth ≤ p1.count x depth)
    (hle' : ∀ x depth, p2.count x depth ≤ p'.count x depth) : l.Fresh p p' := by
  obtain ⟨depth, hdepth, hlow, hhigh⟩ := h
  exact ⟨depth, hdepth, (hle _ _).trans hlow, hhigh.trans_le (hle' _ _)⟩

end FunctionLabel

namespace Environment

variable {env : Environment} {x : String}

theorem find?_declared_singleton (env : Environment) (d : Declaration) (x : String) :
    (env.declared [d]).find? x = if d.name = x then some ⟨d, env.scope⟩ else env.find? x := by
  by_cases hx : d.name = x <;> simp [find?, declared, Binding.name, hx]

/-- What a list of declarations adds is found first. -/
theorem find?_declared (env : Environment) (ds : List Declaration) (x : String) :
    (env.declared ds).find? x =
      ((ds.reverse.find? fun d => d.name = x).map fun d => ⟨d, env.scope⟩).or (env.find? x) := by
  rw [find?, declared, find?_append, ← map_reverse, find?_map]
  rfl

/-- Declarations of variables and parameters let no further function be awaited. -/
theorem awaited_of_declared {ds : List Declaration} (hds : ∀ f, .fn f ∉ ds)
    (h : l.Awaited (env.declared ds)) : l.Awaited env := by
  obtain ⟨f, hfind, hf, hl⟩ := h
  refine ⟨f, ?_, hf, hl⟩
  rw [find?_declared] at hfind
  cases hadded : ds.reverse.find? fun d => d.name = l.name with
  | none => simpa only [hadded, map_none, none_or, scope_declared] using hfind
  | some d =>
    have hmem := mem_reverse.mp (mem_of_find?_eq_some hadded)
    simp only [hadded, map_some, some_or, some.injEq, Binding.mk.injEq]
      at hfind
    exact absurd (hfind.1 ▸ hmem) (hds f)

/-- In a scope that has just been entered no function is awaited. -/
theorem not_awaited_enter (h : env.Ordered) (l : FunctionLabel) : ¬ l.Awaited env.enter := by
  rintro ⟨f, hfind, -, -⟩
  have hle : env.scope + 1 ≤ env.scope := h.scope_le _ (mem_of_find?_eq_some hfind)
  omega

end Environment

/-! ### Introducing a function -/

section Introduce

variable {p p1 : Progress} {f : FunctionDecl} {label : FunctionLabel}

variable (h : introduce f p = .ok label p1)

include h

theorem scope_of_introduce : p1.env.scope = p.env.scope := by
  obtain ⟨serial, functions, hdeclare, -⟩ := introduce_cases h
  rw [eq_of_declare hdeclare]

theorem count_le_of_introduce (x : String) (depth : Int) : p.count x depth ≤ p1.count x depth := by
  obtain ⟨serial, functions, -, -, hp1, hcases⟩ := introduce_cases h
  rw [hp1]
  obtain ⟨_, -, -, -, rfl⟩ | ⟨-, -, rfl⟩ := hcases
  · exact Nat.le_refl _
  · exact count_le_count_cons

/-- The label of a function that is introduced was awaited or is counted, and in either case
it has been counted then. -/
theorem label_of_introduce (hcounted : p.Counted) (hscope : 0 ≤ p.env.scope) :
    label.name = f.name ∧ label.depth = some p.env.scope ∧
      label.serial < p1.count f.name p.env.scope ∧ (label.Fresh p p1 ∨ label.Awaited p.env) := by
  obtain ⟨serial, functions, -, rfl, hp1, hcases⟩ := introduce_cases h
  refine ⟨rfl, rfl, ?_⟩
  obtain ⟨forward, hfind, hforward, rfl, rfl⟩ | ⟨-, rfl, rfl⟩ := hcases
  · have hname : forward.name = f.name := name_of_find? hfind
    have hmem := mem_of_find?_eq_some hfind
    rw [hp1]
    exact ⟨hname ▸ hcounted _ hmem forward rfl hscope,
      .inr ⟨forward, hfind, hforward, by rw [hname]⟩⟩
  · have hlt : p.count f.name p.env.scope < p1.count f.name p.env.scope := by
      rw [hp1]
      simp [Progress.count]
    exact ⟨hlt, .inl ⟨_, rfl, Nat.le_refl _, hlt⟩⟩

theorem counted_of_introduce (hcounted : p.Counted) (hscope : 0 ≤ p.env.scope) : p1.Counted := by
  obtain ⟨-, -, hlt, -⟩ := label_of_introduce h hcounted hscope
  obtain ⟨serial, functions, hdeclare, rfl, -, -⟩ := introduce_cases h
  intro b hb g hg hb0
  rw [eq_of_declare hdeclare] at hb
  rcases mem_cons.mp hb with rfl | hb
  · cases hg
    exact hlt
  · exact (hcounted b hb g hg hb0).trans_le (count_le_of_introduce h _ _)

/-- What is awaited after a function was introduced is the function itself or was awaited
before. -/
theorem awaited_of_introduce (hl : l.Awaited p1.env) :
    l.Awaited p.env ∧ l.name ≠ f.name ∨ l = label ∧ f.isDefined = false := by
  obtain ⟨serial, functions, hdeclare, rfl, -, -⟩ := introduce_cases h
  obtain ⟨g, hfind, hg, hl⟩ := hl
  rw [eq_declared hdeclare] at hfind hl
  rw [find?_declared_singleton] at hfind
  split at hfind
  · cases hfind
    exact .inr ⟨hl, hg⟩
  · rename_i hname
    exact .inl ⟨⟨g, hfind, hg, hl⟩, fun h => hname h.symm⟩

end Introduce

/-! ### Local declarations -/

/-- The labels of the functions among local declarations. -/
structure Labelled (p p' : Progress) (rs : List CompiledFunction) : Prop where
  count_le : ∀ x depth, p.count x depth ≤ p'.count x depth
  counted : p'.Counted
  depth : ∀ r ∈ rs, ∃ depth, r.label.depth = some depth ∧ p.env.scope ≤ depth
  fresh : ∀ r ∈ rs, r.label.Fresh p p' ∨ r.label.Awaited p.env
  nodup : (rs.map label).Nodup

namespace Labelled

variable {p p1 p2 p3 p' : Progress} {rs rs' : List CompiledFunction}

/-- Declarations without functions in front. -/
theorem after (h : Labelled p1 p' rs) (hscope : p1.env.scope = p.env.scope)
    (hle : ∀ x depth, p.count x depth ≤ p1.count x depth)
    (hawaited : ∀ l : FunctionLabel, l.Awaited p1.env → l.Fresh p p1 ∨ l.Awaited p.env) :
    Labelled p p' rs where
  count_le x depth := (hle x depth).trans (h.count_le x depth)
  counted := h.counted
  depth := hscope ▸ h.depth
  fresh r hr := by
    rcases h.fresh r hr with hfresh | hl
    · exact .inl (hfresh.mono hle fun _ _ => Nat.le_refl _)
    · exact (hawaited _ hl).imp_left (·.mono (fun _ _ => Nat.le_refl _) h.count_le)
  nodup := h.nodup

/-- A function with those inside it, in front of further declarations. -/
theorem function {r : CompiledFunction} (hcounted : p.Counted) (hscope : 0 ≤ p.env.scope)
    (hintroduce : introduce r.function p = .ok r.label p1)
    (hdefined : r.function.isDefined) (around : Declares.Around r p1 p2 p3)
    (hcloses : r.Closes p3) (inner : Labelled p2 r.opened rs) (rest : Labelled p3 p' rs') :
    Labelled p p' (rs ++ r :: rs') := by
  obtain ⟨hname, hdepth, hserial, hlabel⟩ := label_of_introduce hintroduce hcounted hscope
  have henv1 := scope_of_introduce hintroduce
  have henv2 : p2.env.scope = p.env.scope + 1 := by
    rw [around.redeclares.env_eq, ← henv1]
    rfl
  have hle1 := count_le_of_introduce hintroduce
  have hcount2 : p2.functions = p1.functions := by rw [around.redeclares]
  have hle3 : ∀ x depth, p1.count x depth ≤ p3.count x depth := by
    intro x depth
    rw [Progress.count, Progress.count, hcloses.functions, ← hcount2]
    exact inner.count_le x depth
  have hle : ∀ x depth, p.count x depth ≤ p3.count x depth :=
    fun x depth => (hle1 x depth).trans (hle3 x depth)
  -- no function inside is awaited when the scope is entered
  have hinner : ∀ s ∈ rs, s.label.Fresh p1 p3 := by
    intro s hs
    have hfresh := (inner.fresh s hs).resolve_right fun hl => by
      rw [around.redeclares.env_eq] at hl
      exact not_awaited_enter around.introduced.env.ordered _
        (awaited_of_declared (by simp) hl)
    refine hfresh.mono (fun x depth => ?_) fun x depth => ?_
    · rw [Progress.count, Progress.count, hcount2]
    · rw [Progress.count, Progress.count, hcloses.functions]
  -- and the function is not awaited any more when it has been closed
  have hawaited : ∀ l : FunctionLabel, l.Awaited p3.env → l.Awaited p.env ∧ l ≠ r.label := by
    intro l hl
    rw [around.env_eq] at hl
    obtain ⟨hl, hne⟩ | ⟨-, hnot⟩ := awaited_of_introduce hintroduce hl
    · exact ⟨hl, fun h => hne (by rw [h, hname])⟩
    · rw [hdefined] at hnot
      cases hnot
  exact {
    count_le := fun x depth => (hle x depth).trans (rest.count_le x depth)
    counted := rest.counted
    depth := by
      refine forall_mem_append.mpr ⟨fun s hs => ?_, forall_mem_cons.mpr ⟨?_, ?_⟩⟩
      · obtain ⟨depth, hd, hle⟩ := inner.depth s hs
        exact ⟨depth, hd, by omega⟩
      · exact ⟨_, hdepth, Int.le_refl _⟩
      · rw [← henv1, ← around.env_eq]
        exact rest.depth
    fresh := by
      refine forall_mem_append.mpr ⟨fun s hs => ?_, forall_mem_cons.mpr ⟨?_, ?_⟩⟩
      · exact .inl ((hinner s hs).mono hle1 rest.count_le)
      · refine hlabel.imp_left (·.mono (fun _ _ => Nat.le_refl _) fun x depth => ?_)
        exact (hle3 x depth).trans (rest.count_le x depth)
      · intro s hs
        rcases rest.fresh s hs with hfresh | hl
        · exact .inl (hfresh.mono hle fun _ _ => Nat.le_refl _)
        · exact .inr (hawaited _ hl).1
    nodup := by
      rw [map_append, map_cons]
      refine nodup_append.mpr ⟨inner.nodup, nodup_cons.mpr ⟨?_, rest.nodup⟩, ?_⟩
      · intro hmem
        obtain ⟨s, hs, heq⟩ := mem_map.mp hmem
        rcases rest.fresh s hs with ⟨depth, hd, hlow, -⟩ | hl
        · rw [heq, hdepth] at hd
          cases hd
          rw [heq, hname] at hlow
          have := hle3 r.function.name p.env.scope
          omega
        · exact (hawaited _ hl).2 heq
      · intro l hl l' hl' heq
        obtain ⟨s, hs, rfl⟩ := mem_map.mp hl
        obtain ⟨depth, hd, hlt⟩ := inner.depth s hs
        rcases mem_cons.mp hl' with rfl | hl'
        · rw [heq, hdepth] at hd
          cases hd
          omega
        obtain ⟨s', hs', rfl⟩ := mem_map.mp hl'
        rcases rest.fresh s' hs' with ⟨depth', hd', hlow, -⟩ | hl
        · obtain ⟨depth'', hd'', -, hhigh⟩ := hinner s hs
          rw [heq, hd'] at hd''
          cases hd''
          rw [heq] at hhigh
          omega
        · obtain ⟨f, -, -, hf⟩ := hl
          rw [heq, hf] at hd
          cases hd
          rw [around.env_eq] at hlt
          omega }

end Labelled

namespace Declares

variable {path : List Nat} {k : Nat} {ds : List Decl} {p p' : Progress}
  {rs : List CompiledFunction}

/-- Declarations of variables and parameters count nothing. -/
theorem counted_of_redeclares {q : Progress} {env : Environment} {ds : List Declaration}
    (hcounted : p.Counted) (h : p.Redeclares q (env.declared ds))
    (henv : env.bindings = p.env.bindings) (hds : ∀ f, .fn f ∉ ds) : q.Counted := by
  intro b hb f hf hb0
  rw [h.env_eq, declared, henv] at hb
  rcases mem_append.mp hb with hb | hb
  · obtain ⟨d, hd, rfl⟩ := mem_map.mp (mem_reverse.mp hb)
    exact absurd (hf ▸ hd) (hds f)
  · rw [h]
    exact hcounted b hb f hf hb0

theorem labelled (h : Declares path k ds p p' rs) (hp : p.Settled) (hcounted : p.Counted)
    (hscope : 0 ≤ p.env.scope) : Labelled p p' rs := by
  induction h with
  | nil => exact ⟨fun _ _ => Nat.le_refl _, hcounted, by simp, by simp, nodup_nil⟩
  | vars hvars _ ih =>
    have hp1 := declareVariables_ok hvars
    have hrest := ih (declareVariables_settled hp hvars)
      (counted_of_redeclares hcounted hp1 rfl (by simp)) (by rwa [hp1])
    refine hrest.after (by rw [hp1]; rfl) (fun x depth => by rw [hp1]; exact Nat.le_refl _) ?_
    intro l hl
    rw [hp1.env_eq] at hl
    exact .inr (awaited_of_declared (by simp) hl)
  | forward hheader hintroduce _ ih =>
    have hp1 := introduce_settled hp hheader hintroduce
    obtain ⟨-, -, -, hlabel⟩ := label_of_introduce hintroduce hcounted hscope
    have hscope1 := scope_of_introduce hintroduce
    have hrest := ih hp1 (counted_of_introduce hintroduce hcounted hscope) (by rwa [hscope1])
    refine hrest.after hscope1 (count_le_of_introduce hintroduce) fun l hl => ?_
    obtain ⟨hl, -⟩ | ⟨rfl, -⟩ := awaited_of_introduce hintroduce hl
    · exact .inr hl
    · exact hlabel
  | @function path k r ds p p1 p2 p3 p' rs rs' hpath hintroduce hopen inner hcloses _ ihinner
      ihrest =>
    have around := Declares.around hp hintroduce hopen inner hcloses
    have hscope1 := scope_of_introduce hintroduce
    have hscope2 : p2.env.scope = p.env.scope + 1 := by
      rw [around.redeclares.env_eq, ← hscope1]
      rfl
    have hcounted1 := counted_of_introduce hintroduce hcounted hscope
    have hinner := ihinner around.entered
      (counted_of_redeclares hcounted1 around.redeclares rfl (by simp)) (by omega)
    -- the functions that are visible afterwards were counted before
    have hcounted3 : p3.Counted := by
      intro b hb f hf hb0
      rw [around.env_eq] at hb
      refine (hcounted1 b hb f hf hb0).trans_le ?_
      have hle := hinner.count_le f.name b.scope
      rwa [Progress.count, around.redeclares, Progress.count, ← hcloses.functions] at hle
    have hrest := ihrest around.closed hcounted3 (by rwa [around.env_eq, hscope1])
    obtain ⟨-, -, -, hdefined, -⟩ := eq_of_signature hcloses.header
    exact .function hcounted hscope hintroduce hdefined around hcloses hinner hrest

end Declares

/-! ### Programs -/

namespace Compiles

variable {tree : Decl} {p : Progress} {rs : List CompiledFunction}

/-- When the scope of the program has been opened, the program is counted. -/
theorem counted_outermost {r : CompiledFunction} (h : Outermost r p1 p2 p) : p1.Counted := by
  intro b hb f hf hscope
  rw [h.env] at hb
  rcases mem_cons.mp hb with rfl | hb
  · cases hf
    rw [h.serial, Progress.count, h.functions]
    simp [standard, declared, enter]
  · have hstandard : ∀ b ∈ standard.bindings, b.scope = -1 := by decide
    have hb' := hstandard b hb
    omega

/-- The functions of a program have different labels, with depths that are not negative. -/
theorem labelled (h : Compiles tree p rs) :
    (rs.map label).Nodup ∧
      ∀ r ∈ rs, ∃ depth, r.label.depth = some depth ∧ 0 ≤ depth := by
  obtain ⟨r, p1, p2, inner, -, rfl, hinner, houter⟩ := h.outermost
  have hscope : p1.env.scope = 1 := by
    rw [houter.env]
    rfl
  have hlabelled := hinner.labelled houter.settled (counted_outermost houter) (by omega)
  have hdepth : r.label.depth = some 0 := by rw [houter.label]
  constructor
  · rw [map_append, map_singleton]
    refine nodup_append.mpr ⟨hlabelled.nodup, nodup_singleton _, fun l hl l' hl' heq => ?_⟩
    -- the functions inside are deeper than the program
    obtain ⟨s, hs, rfl⟩ := mem_map.mp hl
    obtain ⟨depth, hd, hle⟩ := hlabelled.depth s hs
    rw [heq, mem_singleton.mp hl', hdepth] at hd
    cases hd
    omega
  · refine forall_mem_append.mpr ⟨fun s hs => ?_, forall_mem_singleton.mpr ?_⟩
    · obtain ⟨depth, hd, hle⟩ := hlabelled.depth s hs
      exact ⟨depth, hd, by omega⟩
    · exact ⟨0, hdepth, Int.le_refl 0⟩

end Compiles

end BlockLang
