import BlockLang.Proofs.Environment.History

/-!
# Forward declarations

Within a scope a name is declared once, or twice if it is that of a function which is declared
ahead and then defined with the same header. So leaving a scope is refused exactly if a function
that was declared ahead has no definition.
-/

namespace BlockLang

open Environment List List.Pairwise

namespace Environment

/-- A declaration defines the function that an earlier one has declared, with its header. -/
def Fulfils (later earlier : Declaration) : Prop :=
  ∃ f g, earlier = .fn f ∧ later = .fn g ∧ f.isDefined = false ∧ g.isDefined = true ∧
    g.sameHeader f = true

/-- Of two declarations of a name in a scope, the later one defines the function that the
earlier one has declared. -/
def Forwarded (env : Environment) : Prop :=
  env.bindings.Pairwise fun b b' => b.scope = b'.scope → b.name = b'.name →
    Fulfils b.declaration b'.declaration

variable {env env' : Environment}

theorem fulfils_of_conflict? {earlier later : Declaration} (h : conflict? earlier later = none) :
    Fulfils later earlier := by
  unfold conflict? at h
  split at h
  · rename_i forward definition
    split at h
    · rename_i hboth
      split at h
      · rename_i hheader
        exact ⟨forward, definition, rfl, rfl, hboth.1, hboth.2, hheader⟩
      · cases h
    · cases h
  · cases h

/-- A declaration in a scope fulfils the one that its name stood for there. -/
theorem fulfils_of_declare {d e : Declaration} (h : env.declare d = .ok env')
    (hfind : env.find? d.name = some ⟨e, env.scope⟩) : Fulfils d e := by
  refine fulfils_of_conflict? ?_
  unfold declare at h
  rw [hfind] at h
  dsimp only [Option.bind_eq_bind, Option.bind_some] at h
  rw [if_pos rfl] at h
  split at h
  · cases h
  · assumption

/-- What fulfils a declaration is not fulfilled itself. -/
theorem not_fulfils_of_fulfils {d e c : Declaration} (h : Fulfils d e) : ¬ Fulfils c d := by
  rintro ⟨f, g, rfl, -, hf, -⟩
  obtain ⟨-, g', -, heq, -, hg', -⟩ := h
  cases heq
  rw [hf] at hg'
  cases hg'

/-! ### What histories keep -/

namespace Forwarded

theorem empty : ({} : Environment).Forwarded := nil

variable (h : env.Forwarded)

include h

theorem declare {d : Declaration} (hordered : env.Ordered)
    (hdeclare : env.declare d = .ok env') : env'.Forwarded := by
  rw [eq_of_declare hdeclare]
  refine pairwise_cons.mpr ⟨fun b hb hscope hname => ?_, h⟩
  have hscope : b.scope = env.scope := hscope.symm
  have hname : b.name = d.name := hname.symm
  obtain ⟨e, later, earlier, hfind, hbindings, hmem⟩ := hordered.find?_innermost hb hscope
  have hfulfils : Fulfils d e := fulfils_of_declare hdeclare (hname ▸ hfind)
  rcases mem_cons.mp hmem with rfl | hmem
  · exact hfulfils
  · -- A still earlier declaration would be fulfilled by the one that is found.
    have hpairwise : (later ++ ⟨e, env.scope⟩ :: earlier).Pairwise fun b b' =>
        b.scope = b'.scope → b.name = b'.name → Fulfils b.declaration b'.declaration :=
      hbindings ▸ h
    have hpair := rel_of_pairwise_cons (pairwise_append.mp hpairwise).2.1 hmem
    have hfulfilled := hpair hscope.symm (name_of_find? hfind)
    exact absurd hfulfils (not_fulfils_of_fulfils hfulfilled)

theorem leave (hleave : env.leave = .ok env') : env'.Forwarded := by
  rw [eq_of_leave hleave]
  exact sublist (dropWhile_sublist _) h

theorem perform (hordered : env.Ordered) (op : ScopeOp) : (env.perform op).1.Forwarded :=
  perform_cases (P := Forwarded) h h h.leave (h.declare hordered)
    (fun ds => (declareAll_induction (P := fun env => env.Forwarded ∧ env.Ordered) ⟨h, hordered⟩
      (fun h hd => ⟨h.1.declare h.2 hd, h.2.declare hd⟩) ds).1) op

theorem run (hordered : env.Ordered) (ops : List ScopeOp) : (env.run ops).Forwarded := by
  induction ops generalizing env with
  | nil => exact h
  | cons op ops ih => exact ih (h.perform hordered op) (hordered.perform op)

/-- The declarations of a name in a scope fulfil each other in their order. -/
theorem pairwise_entries (scope : Int) (x : String) :
    ((env.ofScope scope).filter fun b => b.name = x).Pairwise fun b b' =>
      Fulfils b'.declaration b.declaration := by
  rw [ofScope, filter_reverse, pairwise_reverse, filter_filter]
  refine (sublist filter_sublist h).imp_of_mem fun hb hb' hfulfils => ?_
  simp only [mem_filter, Bool.and_eq_true, decide_eq_true_eq] at hb hb'
  exact hfulfils (hb.2.2.trans hb'.2.2.symm) (hb.2.1.trans hb'.2.1.symm)

/-- A name has no declaration in a scope, or one, or one ahead and then the definition. -/
theorem entries (scope : Int) (x : String) :
    (env.ofScope scope).filter (fun b => b.name = x) = [] ∨
      (∃ b, (env.ofScope scope).filter (fun b => b.name = x) = [b]) ∨
      ∃ f g, (env.ofScope scope).filter (fun b => b.name = x) = [⟨.fn f, scope⟩, ⟨.fn g, scope⟩] ∧
        f.isDefined = false ∧ g.isDefined = true ∧ g.sameHeader f = true := by
  have hpairwise := h.pairwise_entries scope x
  have hscope : ∀ b ∈ (env.ofScope scope).filter (fun b => b.name = x), b.scope = scope := by
    intro b hb
    have hmem := (mem_filter.mp (mem_reverse.mp (mem_filter.mp hb).1)).2
    exact of_decide_eq_true hmem
  generalize (env.ofScope scope).filter (fun b => b.name = x) = es at hpairwise hscope ⊢
  rcases es with _ | ⟨b, _ | ⟨b', _ | ⟨b'', es⟩⟩⟩
  · exact .inl rfl
  · exact .inr (.inl ⟨b, rfl⟩)
  · obtain ⟨d, s⟩ := b
    obtain ⟨d', s'⟩ := b'
    obtain ⟨f, g, rfl, rfl, hf, hg, hheader⟩ :=
      rel_of_pairwise_cons hpairwise mem_cons_self
    obtain rfl : s = scope := hscope _ mem_cons_self
    obtain rfl : s' = s := hscope _ (mem_cons_of_mem _ mem_cons_self)
    exact .inr (.inr ⟨f, g, rfl, hf, hg, hheader⟩)
  · -- The middle one would be a definition and a declaration ahead at once.
    have hfirst := rel_of_pairwise_cons hpairwise mem_cons_self
    have hsecond := rel_of_pairwise_cons (pairwise_cons.mp hpairwise).2
      mem_cons_self
    exact absurd hsecond (not_fulfils_of_fulfils hfirst)

end Forwarded

/-! ### Leaving a scope -/

/-- The functions of the innermost scope in the order of their declaration. -/
def functions (env : Environment) : List FunctionDecl :=
  (env.ofScope env.scope).filterMap Binding.function?

/-- A function is declared, and none of its name is defined in the innermost scope. -/
def Lacks (env : Environment) (f : FunctionDecl) : Prop :=
  f.isDefined = false ∧ ∀ g ∈ env.functions, g.isDefined = true → g.name ≠ f.name

instance (env : Environment) : DecidablePred env.Lacks := fun _ =>
  inferInstanceAs (Decidable (_ ∧ _))

/-- The innermost scope holds all the declarations with its depth. -/
theorem Ordered.innermost_eq (h : env.Ordered) :
    env.innermost = env.bindings.filter fun b => b.scope = env.scope := by
  unfold innermost
  obtain ⟨hsorted, hle⟩ := h
  generalize env.bindings = bs at hsorted hle
  induction bs with
  | nil => rfl
  | cons b bs ih =>
    obtain ⟨hfirst, hrest⟩ := pairwise_cons.mp hsorted
    by_cases hb : b.scope = env.scope
    · rw [takeWhile_cons_of_pos (by simpa), filter_cons_of_pos (by simpa),
        ih hrest fun b' hb' => hle b' (mem_cons_of_mem _ hb')]
    · -- What comes after a declaration of an outer scope is outside as well.
      have hlt := hle b mem_cons_self
      rw [takeWhile_cons_of_neg (by simpa), eq_comm, filter_eq_nil_iff]
      intro b' hb'
      simp only [decide_eq_true_eq]
      rcases mem_cons.mp hb' with rfl | hb'
      · exact hb
      · have hle' := hfirst b' hb'
        omega

theorem Ordered.functions_eq (h : env.Ordered) :
    env.innermost.filterMap Binding.function? = env.functions.reverse := by
  rw [functions, ofScope, h.innermost_eq, filterMap_reverse, reverse_reverse]

theorem mem_entries_of_mem_functions {f : FunctionDecl} (h : f ∈ env.functions) :
    ⟨.fn f, env.scope⟩ ∈ (env.ofScope env.scope).filter fun b => b.name = f.name := by
  obtain ⟨⟨d, scope⟩, hb, hf⟩ := mem_filterMap.mp h
  have hscope := (mem_filter.mp (mem_reverse.mp hb)).2
  obtain rfl : scope = env.scope := of_decide_eq_true hscope
  cases d with
  | fn g =>
    cases hf
    exact mem_filter.mpr ⟨hb, decide_eq_true rfl⟩
  | _ => cases hf

section Forwarded

variable (h : env.Forwarded)

include h

/-- A definition in the innermost scope has the header of what was declared ahead. -/
theorem Forwarded.sameHeader {f g : FunctionDecl} (hf : f ∈ env.functions)
    (hg : g ∈ env.functions) (hdeclared : f.isDefined = false) (hdefined : g.isDefined = true)
    (hname : g.name = f.name) : g.sameHeader f = true := by
  obtain ⟨hfmem, hgmem⟩ := And.intro (mem_entries_of_mem_functions hf)
    (mem_entries_of_mem_functions hg)
  rw [hname] at hgmem
  rcases h.entries env.scope f.name with hnil | ⟨b, hone⟩ | ⟨f', g', htwo, hf', hg', hheader⟩
  · rw [hnil] at hfmem
    cases hfmem
  · rw [hone, mem_singleton] at hfmem hgmem
    cases hfmem.trans hgmem.symm
    rw [hdeclared] at hdefined
    cases hdefined
  · rw [htwo] at hfmem hgmem
    grind

/-- Only a lack of a definition is wrong with a forward declaration. -/
theorem Forwarded.unfulfilled?_eq {f : FunctionDecl} (hf : f ∈ env.functions)
    (hdeclared : f.isDefined = false) :
    unfulfilled? env.functions.reverse f =
      if env.Lacks f then some ⟨.neverDefined f.name, f.location, none⟩ else none := by
  unfold unfulfilled?
  cases hfind : env.functions.reverse.find? fun g => g.isDefined ∧ g.name = f.name with
  | none =>
    have hlacks : env.Lacks f := by
      refine ⟨hdeclared, fun g hg hdefined hname => ?_⟩
      have hnot := find?_eq_none.mp hfind g (mem_reverse.mpr hg)
      exact hnot (decide_eq_true ⟨hdefined, hname⟩)
    rw [if_pos hlacks]
  | some g =>
    have hg : g ∈ env.functions := mem_reverse.mp (mem_of_find?_eq_some hfind)
    obtain ⟨hdefined, hname⟩ : g.isDefined = true ∧ g.name = f.name := by
      simpa using find?_some hfind
    have hnot : ¬ env.Lacks f := fun hlacks => hlacks.2 g hg hdefined hname
    rw [if_neg hnot]
    exact if_pos (h.sameHeader hf hg hdeclared hdefined hname)

/-- The first fault is that of the first function that lacks a definition. -/
theorem Forwarded.findSome?_unfulfilled? {fs : List FunctionDecl} (hfs : fs ⊆ env.functions) :
    (fs.filter fun f => f.isDefined = false).findSome? (unfulfilled? env.functions.reverse) =
      (fs.find? env.Lacks).map fun f => ⟨.neverDefined f.name, f.location, none⟩ := by
  induction fs with
  | nil => rfl
  | cons f fs ih =>
    obtain ⟨hf, hfs⟩ := cons_subset.mp hfs
    by_cases hdeclared : f.isDefined = false
    · rw [filter_cons_of_pos (by simpa), findSome?_cons, h.unfulfilled?_eq hf hdeclared,
        find?_cons]
      by_cases hlacks : env.Lacks f
      · simp [hlacks]
      · simpa [hlacks] using ih hfs
    · have hlacks : ¬ env.Lacks f := fun hlacks => hdeclared hlacks.1
      rw [filter_cons_of_neg (by simpa using hdeclared), find?_cons_of_neg (by simpa),
        ih hfs]

variable (hordered : env.Ordered)

include hordered

/-- Leaving a scope is refused because of the first function that lacks a definition. -/
theorem leave_eq :
    env.leave = match env.functions.find? env.Lacks with
      | some f => .error ⟨.neverDefined f.name, f.location, none⟩
      | none => .ok ⟨env.bindings.filter fun b => b.scope ≠ env.scope, env.scope - 1⟩ := by
  have hfirst := h.findSome?_unfulfilled? (List.Subset.refl env.functions)
  have hrun : env.leave = ((env.functions.find? env.Lacks).map fun f =>
      (⟨.neverDefined f.name, f.location, none⟩ : SemanticError)).elim
        (.ok ⟨env.bindings.drop env.innermost.length, env.scope - 1⟩) .error := by
    unfold leave
    rw [← hfirst, hordered.functions_eq]
    simp only [reverse_reverse]
    cases (List.filter _ _).findSome? _ <;> rfl
  cases hlacks : env.functions.find? env.Lacks with
  | none =>
    rw [hlacks] at hrun
    have hbindings := hordered.bindings_of_leave hrun
    rw [hrun]
    simpa using hbindings
  | some f =>
    rw [hlacks] at hrun
    exact hrun

theorem leave_eq_error_iff {e : SemanticError} :
    env.leave = .error e ↔ ∃ f, env.functions.find? env.Lacks = some f ∧
      e = ⟨.neverDefined f.name, f.location, none⟩ := by
  rw [leave_eq h hordered]
  cases env.functions.find? env.Lacks with
  | none => simp
  | some f => simp [eq_comm]

theorem exists_leave_eq_error :
    (∃ e, env.leave = .error e) ↔ ∃ f ∈ env.functions, env.Lacks f := by
  have hsome : (∃ f ∈ env.functions, env.Lacks f) ↔
      (env.functions.find? env.Lacks).isSome := by
    rw [find?_isSome]
    simp
  rw [hsome, Option.isSome_iff_exists]
  constructor
  · rintro ⟨e, he⟩
    obtain ⟨f, hf, -⟩ := (leave_eq_error_iff h hordered).mp he
    exact ⟨f, hf⟩
  · rintro ⟨f, hf⟩
    exact ⟨_, (leave_eq_error_iff h hordered).mpr ⟨f, hf, rfl⟩⟩

end Forwarded

/-- A definition is refused if its header is not the one that was declared ahead. -/
theorem declare_eq_headerDiffers {f g : FunctionDecl}
    (hfind : env.find? g.name = some ⟨.fn f, env.scope⟩) (hdeclared : f.isDefined = false)
    (hdefined : g.isDefined = true) (hheader : g.sameHeader f = false) :
    env.declare (.fn g) = .error ⟨.headerDiffers g.name, g.location, some f.location⟩ := by
  have hname : (Declaration.fn g).name = g.name := rfl
  unfold declare
  rw [hname, hfind]
  simp [conflict?, hdeclared, hdefined, hheader]

/-- After every history, whether its operations succeeded or were refused, leaving the
innermost scope is refused exactly if a function is declared there and none of its name is
defined there, and the first such declaration is reported. The headers of declarations and
definitions agree, since a definition with another header is refused. A scope holds at most
two declarations of a name, and two only of a function that is declared ahead and then
defined with the same header. The same holds of a symbol table with this history. -/
theorem forward_declarations (ops : List ScopeOp) :
    let t := ({} : SymbolTable).run ops
    let env := ({} : Environment).run ops
    (t.entries.toList.map SymbolTable.Entry.toBinding = env.bindings.reverse ∧
      ∀ e, t.leave = .error e ↔ env.leave = .error e) ∧
    ((∃ e, env.leave = .error e) ↔ ∃ f ∈ env.functions, f.isDefined = false ∧
      ∀ g ∈ env.functions, g.isDefined = true → g.name ≠ f.name) ∧
    (∀ e, env.leave = .error e ↔ ∃ before f after, env.functions = before ++ f :: after ∧
      env.Lacks f ∧ (∀ g ∈ before, ¬ env.Lacks g) ∧
      e = ⟨.neverDefined f.name, f.location, none⟩) ∧
    (∀ f ∈ env.functions, ∀ g ∈ env.functions, f.isDefined = false → g.isDefined = true →
      g.name = f.name → g.sameHeader f = true) ∧
    (∀ f g, env.find? g.name = some ⟨.fn f, env.scope⟩ → f.isDefined = false →
      g.isDefined = true → g.sameHeader f = false → env.declare (.fn g) =
        .error ⟨.headerDiffers g.name, g.location, some f.location⟩) ∧
    ∀ scope x, ((env.ofScope scope).filter fun b => b.name = x).length ≤ 2 ∧
      (((env.ofScope scope).filter fun b => b.name = x).length = 2 → ∃ f g,
        (env.ofScope scope).filter (fun b => b.name = x) = [⟨.fn f, scope⟩, ⟨.fn g, scope⟩] ∧
          f.isDefined = false ∧ g.isDefined = true ∧ g.sameHeader f = true) := by
  intro t env
  have hrepresents : t.Represents env := SymbolTable.represents_run ops
  have hordered : env.Ordered := SymbolTable.ordered_run ops
  have hforwarded : env.Forwarded := Forwarded.empty.run Ordered.empty ops
  refine ⟨⟨hrepresents.map_entries, ?_⟩, ?_, ?_, ?_, ?_, ?_⟩
  · intro e
    obtain ⟨e', ht, henv⟩ | ⟨t', env', ht, henv, -⟩ := hrepresents.leave
    · simp [ht, henv]
    · simp [ht, henv]
  · rw [exists_leave_eq_error hforwarded hordered]
    rfl
  · intro e
    rw [leave_eq_error_iff hforwarded hordered]
    constructor
    · rintro ⟨f, hfind, rfl⟩
      obtain ⟨hlacks, before, after, hfunctions, hbefore⟩ :=
        find?_eq_some_iff_append.mp hfind
      exact ⟨before, f, after, hfunctions, of_decide_eq_true hlacks,
        fun g hg => by simpa using hbefore g hg, rfl⟩
    · rintro ⟨before, f, after, hfunctions, hlacks, hbefore, rfl⟩
      refine ⟨f, find?_eq_some_iff_append.mpr ⟨decide_eq_true hlacks, before, after,
        hfunctions, fun g hg => ?_⟩, rfl⟩
      simpa using hbefore g hg
  · intro f hf g hg hdeclared hdefined hname
    exact hforwarded.sameHeader hf hg hdeclared hdefined hname
  · intro f g hfind hdeclared hdefined hheader
    exact declare_eq_headerDiffers hfind hdeclared hdefined hheader
  · intro scope x
    rcases hforwarded.entries scope x with hnil | ⟨b, hone⟩ | ⟨f, g, htwo, hfg⟩
    · rw [hnil]
      simp
    · rw [hone]
      simp
    · rw [htwo]
      exact ⟨Nat.le_refl 2, fun _ => ⟨f, g, rfl, hfg⟩⟩

/-- A scope with two functions declared ahead. The first is defined there, after an attempt with
another header, and the second one only in a scope further inside. -/
def unkeptPromise : List ScopeOp :=
  [.declareStandard, .enter, .declare (.fn ⟨"f", .source ⟨1, 1⟩, .int, [], false, 0⟩),
    .declare (.fn ⟨"g", .source ⟨2, 1⟩, .nothing, [], false, 0⟩),
    .declare (.fn ⟨"f", .source ⟨3, 1⟩, .nothing, [], true, 0⟩),
    .declare (.fn ⟨"f", .source ⟨4, 1⟩, .int, [], true, 0⟩), .enter,
    .declare (.fn ⟨"g", .source ⟨5, 1⟩, .nothing, [], true, 0⟩), .leave]

theorem forward_declarations_unkeptPromise :
    (({} : Environment).run unkeptPromise).leave =
        .error ⟨.neverDefined "g", .source ⟨2, 1⟩, none⟩ ∧
      ∃ f g, ((({} : Environment).run unkeptPromise).ofScope 0).filter (fun b => b.name = "f") =
        [⟨.fn f, 0⟩, ⟨.fn g, 0⟩] ∧ f.isDefined = false ∧ g.isDefined = true ∧
          g.sameHeader f = true := by
  obtain ⟨-, -, hleave, -, -, hentries⟩ := forward_declarations unkeptPromise
  refine ⟨(hleave _).mpr ⟨[⟨"f", .source ⟨1, 1⟩, .int, [], false, 0⟩],
    ⟨"g", .source ⟨2, 1⟩, .nothing, [], false, 0⟩,
    [⟨"f", .source ⟨4, 1⟩, .int, [], true, 0⟩], ?_, ?_, ?_, rfl⟩, (hentries 0 "f").2 ?_⟩
  all_goals decide +kernel

end Environment

end BlockLang
