import BlockLang.Proofs.Program.Layout
import BlockLang.Proofs.StaticScoping

/-!
# Functions agree on the places of variables

A function that names a variable of a function around it is lowered first, with a frame of its own
making: the variables that it sees, without temporaries. The variable has the same offset there as
in the frame of the function that owns it.
-/

namespace BlockLang

open List Lower

variable {inner owner r : CompiledFunction} {env : Environment} {f : Frame} {offset : Int}
  {temps : List (Nat × Ty)} {locals more : List Variable} {q : Parameter} {x : String}
  {v : Variable}

namespace Frame

/-- The variables in front can be laid out alone. -/
theorem layout?_isSome_of_append (h : layout? (locals ++ more) temps = some f) :
    (layout? locals []).isSome := by
  obtain ⟨sized, hsized, hlt, -⟩ := layout?_eq_some_iff.mp h
  rw [mapM_append] at hsized
  obtain ⟨first, hfirst, hrest⟩ := Option.bind_eq_some_iff.mp hsized
  obtain ⟨rest, -, heq⟩ := Option.bind_eq_some_iff.mp hrest
  cases heq
  -- Fewer items end higher, also in whole words.
  have htop : depth 0 first ≤ depth (depth 0 (first ++ rest)) (temps.map tempItem) := by
    rw [depth_append]
    exact (le_depth _ _).trans (le_depth _ _)
  exact Option.isSome_iff_exists.mpr ⟨_, layout?_eq_some_iff.mpr
    ⟨first, hfirst, Nat.lt_of_le_of_lt (align_mono htop) hlt, rfl⟩⟩

/-- Variables have the same offsets with and without what is placed after them. -/
theorem exists_layout?_of_append (hnames : ((locals ++ more).map Variable.name).Nodup)
    (h : layout? (locals ++ more) temps = some f) :
    ∃ f', layout? locals [] = some f' ∧ ∀ v ∈ locals, ∃ offset,
      f'.variableOffset? v.name = some offset ∧ f.variableOffset? v.name = some offset := by
  obtain ⟨f', hf'⟩ := Option.isSome_iff_exists.mp (layout?_isSome_of_append h)
  refine ⟨f', hf', fun v hv => ?_⟩
  obtain ⟨offset, hoffset⟩ := Option.isSome_iff_exists.mp (variableOffset?_isSome hf' hv)
  refine ⟨offset, hoffset, ?_⟩
  rw [map_append] at hnames
  have hfresh : v.name ∉ more.map Variable.name :=
    disjoint_of_nodup_append hnames (mem_map_of_mem hv)
  rw [variableOffset?_append hf' h hfresh, hoffset]

end Frame

namespace Environment

/-- In its own scope what is no function is what its name stands for. -/
theorem Sound.find?_of_mem (h : env.Sound) {b : Binding} (hb : b ∈ env.bindings)
    (hscope : b.scope = env.scope) (hfunction : b.function? = none) :
    env.find? b.name = some b := by
  obtain ⟨e, later, earlier, hfind, hbindings, hsplit⟩ :=
    Ordered.find?_innermost ⟨h.sorted, h.scope_le⟩ hb hscope
  rcases mem_cons.mp hsplit with rfl | hearlier
  · exact hfind
  · -- Only functions are declared twice.
    have hdistinct := h.distinct
    rw [hbindings] at hdistinct
    have hpair := rel_of_pairwise_cons (pairwise_append.mp hdistinct).2.1 hearlier
    obtain ⟨-, hsome⟩ := hpair hscope.symm (name_of_find? hfind)
    rw [hfunction] at hsome
    cases hsome

theorem Sound.find?_of_mem_locals (h : env.Sound) (hv : v ∈ env.locals env.scope) :
    env.find? v.name = some ⟨.var v, env.scope⟩ := by
  obtain ⟨⟨d, scope⟩, hb, hvar⟩ := mem_filterMap.mp hv
  obtain ⟨hmem, hscope⟩ := mem_filter.mp (mem_reverse.mp hb)
  obtain rfl : scope = env.scope := by simpa using hscope
  cases d with
  | var w =>
    cases hvar
    exact h.find?_of_mem hmem rfl rfl
  | _ => cases hvar

theorem Sound.find?_of_mem_parameters (h : env.Sound) (hq : q ∈ env.parameters env.scope) :
    env.find? q.name = some ⟨.param q, env.scope⟩ := by
  obtain ⟨⟨d, scope⟩, hb, hparam⟩ := mem_filterMap.mp hq
  obtain ⟨hmem, hscope⟩ := mem_filter.mp (mem_reverse.mp hb)
  obtain rfl : scope = env.scope := by simpa using hscope
  cases d with
  | param q' =>
    cases hparam
    exact h.find?_of_mem hmem rfl rfl
  | _ => cases hparam

end Environment

namespace Lower

/-- The cell of a variable of the function itself. -/
theorem named_own (site : FunctionSite) (hx : site.env.find? x = some ⟨.var v, site.env.scope⟩)
    (hoffset : site.frame.variableOffset? x = some offset) (a : Assembly) :
    named site x a = .ok ⟨.ebp, offset⟩ a := by
  have hhops : site.hops site.env.scope = 0 := Int.sub_self _
  have hslot : variableOffset? site site.env.scope x = some offset := by
    rw [variableOffset?, if_pos hhops, hoffset]
  unfold named
  rw [hx]
  dsimp only
  rw [if_pos hhops, hslot]
  rfl

/-- The cell of a variable of a function around, whose frame is reached first. -/
theorem named_outer (site : FunctionSite) {scope : Int}
    (hx : site.env.find? x = some ⟨.var v, scope⟩) (hscope : scope ≠ site.env.scope)
    (hoffset : variableOffset? site scope x = some offset) (a : Assembly) :
    ∃ a', walk (site.hops scope) a = .ok () a' ∧ named site x a = .ok ⟨.esi, offset⟩ a' := by
  have hhops : site.hops scope ≠ 0 := by
    unfold FunctionSite.hops
    omega
  obtain ⟨⟨⟩, a', hwalk, -⟩ := quiet_emitAll _ a
  refine ⟨a', hwalk, ?_⟩
  unfold named
  rw [hx]
  dsimp only
  rw [if_neg hhops, hoffset]
  exact bind_of_ok hwalk

end Lower

namespace CompiledFunction

/-- A function and one inside it name the same cell for a variable: the inner one in a frame
laid out from what it sees of the variables, the other one in its own frame. -/
structure SharesSlot (owner inner : CompiledFunction) (v : Variable) (offset : Int) : Prop where
  owned : v ∈ owner.opened.env.locals owner.opened.env.scope
  seen : inner.opened.env.locals owner.opened.env.scope <+:
    owner.opened.env.locals owner.opened.env.scope
  inner_offset : ∃ frame, Frame.layout? (inner.opened.env.locals owner.opened.env.scope) [] =
    some frame ∧ frame.variableOffset? v.name = some offset
  owner_offset : Frame.layout? (owner.opened.env.locals owner.opened.env.scope)
    (Emit.newTemps owner.closed) = some owner.frame ∧
      owner.frame.variableOffset? v.name = some offset
  /-- The inner function reaches the frame by links and finds the cell there. -/
  inner_cell : ∀ a, ∃ a', walk (inner.site.hops owner.opened.env.scope) a = .ok () a' ∧
    named inner.site v.name a = .ok ⟨.esi, offset⟩ a'
  owner_cell : ∀ a, named owner.site v.name a = .ok ⟨.ebp, offset⟩ a

end CompiledFunction

namespace Compiles

variable {tree : Decl} {p : Progress} {rs : List CompiledFunction} (h : Compiles tree p rs)
  (htext : tree.InText)

include h htext

/-- A function whose path leads to another one stands around it. -/
theorem encloses_of_prefix (howner : owner ∈ rs) (hinner : inner ∈ rs)
    (hpath : owner.path <+: inner.path) : owner.Encloses inner := by
  obtain ⟨a, ha, htake, hencloses⟩ := h.encloses hinner hpath.length_le
  rw [← prefix_iff_eq_take.mp hpath] at htake
  rwa [h.eq_of_path_eq htext ha howner htake] at hencloses

/-- A function sees its own parameters. -/
theorem find?_parameter (hr : r ∈ rs) :
    r.opened.env.parameters r.opened.env.scope = r.function.parameters ∧
      ∀ q ∈ r.function.parameters,
        r.opened.env.find? q.name = some ⟨.param q, r.opened.env.scope⟩ := by
  have hencloses := h.encloses_of_prefix htext hr hr prefix_rfl
  have hparameters : r.opened.env.parameters r.opened.env.scope = r.function.parameters :=
    hencloses.parameters
  refine ⟨hparameters, fun q hq => ?_⟩
  rw [← hparameters] at hq
  exact (h.settled r hr).env.find?_of_mem_parameters hq

/-- Its parameters have different names. -/
theorem findIdx?_parameter (hr : r ∈ rs) {i : Nat}
    (hq : r.function.parameters[i]? = some q) :
    r.function.parameters.findIdx? (fun q' => q'.name = q.name) = some i := by
  have hnodup := (h.settled r hr).env.nodup_parameters r.opened.env.scope
  rw [(h.find?_parameter htext hr).1] at hnodup
  obtain ⟨hi, hget⟩ := List.getElem?_eq_some_iff.mp hq
  rw [findIdx?_eq_some_iff_getElem]
  refine ⟨hi, decide_eq_true (congrArg (fun q => q.name) hget), fun k hk hname => ?_⟩
  have hk' := hk.trans hi
  have heq : r.function.parameters[k] = r.function.parameters[i] :=
    inj_on_of_nodup_map hnodup (getElem_mem hk') (getElem_mem hi)
      ((of_decide_eq_true hname).trans (congrArg (fun q => q.name) hget.symm))
  exact absurd ((hnodup.of_map _).getElem_inj_iff.mp heq) (Nat.ne_of_lt hk)

/-- A variable that a function names in a function around it lies at one offset for both. -/
theorem sharesSlot (howner : owner ∈ rs) (hinner : inner ∈ rs)
    (hpath : owner.path <+: inner.path) (hne : owner.path ≠ inner.path)
    (hx : inner.opened.env.find? x = some ⟨.var v, owner.opened.env.scope⟩) :
    ∃ offset, owner.SharesSlot inner v offset := by
  have hencloses := h.encloses_of_prefix htext howner hinner hpath
  have hname : v.name = x := Environment.name_of_find? hx
  have hseen := Environment.mem_locals_of_find? hx
  have howned := hencloses.locals.subset hseen
  obtain ⟨p', hcloses⟩ := h.closes owner howner
  obtain ⟨more, hmore⟩ := hencloses.locals
  have hlayout := hcloses.layout
  have hnodup := (h.settled owner howner).env.nodup_locals owner.opened.env.scope
  rw [← hmore] at hlayout hnodup
  obtain ⟨frame, hframe, hoffsets⟩ := Frame.exists_layout?_of_append hnodup hlayout
  obtain ⟨offset, hinnerOffset, hownerOffset⟩ := hoffsets v hseen
  -- the scopes of the two functions differ as the lengths of their paths do
  have hscope : owner.opened.env.scope ≠ inner.opened.env.scope := by
    intro heq
    have hdepth := hencloses.scope
    have hdepth' := h.scope_eq hinner
    exact hne (hpath.eq_of_length (by omega))
  have hslot : variableOffset? inner.site owner.opened.env.scope x = some offset := by
    rw [h.variableOffset?_eq htext hinner howner hencloses hx, ← hname, hownerOffset]
  have hfind := (h.settled owner howner).env.find?_of_mem_locals howned
  refine ⟨offset, howned, hencloses.locals, ⟨frame, hframe, hinnerOffset⟩,
    ⟨hcloses.layout, hownerOffset⟩, fun a => ?_, fun a => ?_⟩
  · rw [hname]
    exact named_outer inner.site hx hscope hslot a
  · exact named_own owner.site hfind hownerOffset a

end Compiles

/-- Variables are laid out alone where they are laid out with others after them, at the same
offsets. So in a text that compiles, a function that names a variable of a function around
it finds it where that function has it. -/
theorem offsets_agree_with_owner :
    (∀ locals more temps f, ((locals ++ more).map Variable.name).Nodup →
      Frame.layout? (locals ++ more) temps = some f →
        ∃ f', Frame.layout? locals [] = some f' ∧ ∀ v ∈ locals, ∃ offset,
          f'.variableOffset? v.name = some offset ∧ f.variableOffset? v.name = some offset) ∧
    ∀ source c, (compile source).1 = .ok c → ∃ lexemes tree p rs,
      Token.scan source = .ok lexemes ∧ (Decl.read lexemes).1 = .ok tree ∧ Compiles tree p rs ∧
        c = p.compilation tree ∧
        ∀ inner ∈ rs, ∀ x v scope, inner.opened.env.find? x = some ⟨.var v, scope⟩ →
          (∃ owner ∈ rs, owner.path <+: inner.path ∧ owner.opened.env.scope = scope) ∧
          ∀ owner ∈ rs, owner.path <+: inner.path → owner.path ≠ inner.path →
            owner.opened.env.scope = scope → ∃ offset, owner.SharesSlot inner v offset := by
  refine ⟨fun locals more temps f hnames h => Frame.exists_layout?_of_append hnames h, ?_⟩
  intro source c hc
  obtain ⟨lexemes, tree, p, rs, hscan, hread, hcompiles, heq⟩ := compiles_of_compile hc
  have htext := Decl.inText_of_read hscan hread
  refine ⟨lexemes, tree, p, rs, hscan, hread, hcompiles, heq, ?_⟩
  intro inner hinner x v scope hx
  constructor
  · obtain ⟨owner, howner, -, hscope, hencloses⟩ :=
      hcompiles.exists_owner htext hinner (mem_of_find?_eq_some hx) nofun
    exact ⟨owner, howner, hencloses.inside, hscope⟩
  · rintro owner howner hpath hne rfl
    exact hcompiles.sharesSlot htext howner hinner hpath hne hx

/-- A program in which a variable is declared after a function that uses another one from two
levels further in. -/
def lateVariable : String :=
  "function main(): nothing;
var c: char;
var n: int;
function f(): nothing;
function g(): nothing; begin n := n + 1; end
begin g(); end
var a: int[10];
begin n := 0; f(); a[n] := 1; end"

theorem offsets_agree_with_owner_lateVariable : ∃ c, (compile lateVariable).1 = .ok c ∧
    ∃ tree p rs, Compiles tree p rs ∧ c = p.compilation tree ∧
      ∃ owner ∈ rs, ∃ inner ∈ rs, owner.path <+: inner.path ∧ owner.path ≠ inner.path ∧
        ∃ v offset, inner.opened.env.find? "n" = some ⟨.var v, owner.opened.env.scope⟩ ∧
          owner.SharesSlot inner v offset := by
  have hknown : (treeOf? lateVariable).any (fun tree => (progress? tree).any fun _ =>
      (tree.definitions [] []).any fun d => "n" ∈ Stmt.namedAll d.body ∧
        binding? tree.name "n" d.levels = some (2, .var [1])) = true := by
    decide +kernel
  obtain ⟨c, hc⟩ := exists_compilation hknown
  obtain ⟨lexemes, tree, p, rs, hscan, hread, hcompiles, heq, hslots⟩ :=
    offsets_agree_with_owner.2 lateVariable c hc
  simp only [treeOf?_eq hscan hread, Option.any_some, Option.any_eq_true, any_eq_true,
    decide_eq_true_eq] at hknown
  obtain ⟨-, -, d, hd, hx, hbinding⟩ := hknown
  have htext := Decl.inText_of_read hscan hread
  obtain ⟨inner, hinner, -, _, _, _, _, -, scope, -, hfind, hdepth⟩ :=
    hcompiles.exists_variable htext hd hx hbinding
  obtain ⟨⟨owner, howner, hpath, hscope⟩, hshares⟩ := hslots _ hinner _ _ _ hfind
  have hne : owner.path ≠ inner.path := by
    intro hsame
    have howns := hcompiles.eq_of_path_eq htext howner hinner hsame
    rw [← howns] at hdepth
    omega
  obtain ⟨offset, hshared⟩ := hshares owner howner hpath hne hscope
  rw [← hscope] at hfind
  exact ⟨c, hc, tree, p, rs, hcompiles, heq, owner, howner, inner, hinner, hpath, hne, _, offset,
    hfind, hshared⟩

end BlockLang
