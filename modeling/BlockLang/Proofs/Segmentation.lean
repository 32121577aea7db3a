import BlockLang.Proofs.Emit.Assignment
import BlockLang.Proofs.Program.Header

/-!
# Code in segments

The quads of a program are divided into segments, one for each function, in the order in
which the functions are completed. The temporaries are divided in the same way. A segment
names only its own temporaries; it writes each of them once, and control gets to a use only
through the quad that writes.
-/

namespace BlockLang

open Code CompiledFunction Emit List

/-- The quads and temporaries of a function. -/
structure CodeSegment where
  path : List Nat
  header : Header
  label : FunctionLabel
  /-- The quads between the first and the last. -/
  body : List Quad
  /-- The types of its temporaries. -/
  temps : List Ty

/-- The quads of a function with those that start and end it. -/
def CodeSegment.quads (s : CodeSegment) : List Quad :=
  .start s.label :: s.body ++ [.finish s.label]

/-- The quads from the first to the last use the temporaries from `lo` up to `hi`. -/
structure Code.Keeps (c : Code) (first last lo hi : Nat) : Prop where
  named : ∀ i q n, first ≤ i → i ≤ last → c.quads[i]? = some q → n ∈ q.temps → lo ≤ n ∧ n < hi
  /-- Each temporary is written by one quad. -/
  written : ∀ n, lo ≤ n → n < hi →
    ∃ w, first < w ∧ w < last ∧ ∀ i, first ≤ i → i ≤ last → (c.writes? i = some n ↔ i = w)
  /-- A temporary that is named for the result of a call is written by that call. -/
  result : ∀ i q n, first ≤ i → i ≤ last → c.quads[i]? = some q → q.destination? = some n →
    c.writes? (i + 1) = some n
  /-- No jump leads behind the quad that writes, up to a use. -/
  used : ∀ w u q n, first ≤ w → w ≤ last → c.writes? w = some n → first ≤ u → u ≤ last →
    c.quads[u]? = some q → n ∈ q.reads → w < u ∧ ∀ i t, c.JumpsTo i t → w < t → u < t
  /-- Control that gets to a use has left the quad that writes. -/
  passed : ∀ w u q n, first ≤ w → w ≤ last → c.writes? w = some n → first ≤ u → u ≤ last →
    c.quads[u]? = some q → n ∈ q.reads →
      ¬ Relation.ReflTransGen (fun i j => i ≠ w ∧ ∃ outcome, c.follow? outcome i = some j) first u

/-- The code of a program in segments. -/
structure Segmented (tree : Decl) (c : Code) (segments : List CodeSegment) : Prop where
  /-- There is one segment for each function of the tree. -/
  definitions : segments.map (fun s => (s.path, s.header)) =
    (tree.definitions [] []).map fun d => (d.path, d.header)
  ordered : (segments.map CodeSegment.path).Pairwise CompletedBefore
  labels : ∀ s ∈ segments, s.label.name = s.header.name
  nodup : (segments.map CodeSegment.label).Nodup
  quads : c.quads.toList = segments.flatMap CodeSegment.quads
  temps : c.temps.toList = segments.flatMap CodeSegment.temps
  /-- A segment has one start and one end. -/
  inner : ∀ s ∈ segments, ∀ q ∈ s.body, q.op ≠ .unit ∧ q.op ≠ .endUnit
  /-- A segment uses the temporaries behind those of the segments in front of it. -/
  keeps : ∀ front s rest, segments = front ++ s :: rest →
    c.Keeps (front.flatMap CodeSegment.quads).length
      ((front.flatMap CodeSegment.quads).length + s.body.length + 1)
      (front.flatMap CodeSegment.temps).length
      ((front.flatMap CodeSegment.temps).length + s.temps.length)

/-! ### The temporaries of a function -/

/-- At the start of a function there are no temporaries. -/
theorem Code.Assigned.start {c : Code} (hc : c.Complete) (label : FunctionLabel) :
    (c.push (.start label)).Assigned c.next c.temps.size := by
  have hwrites : ∀ w n, c.next ≤ w → (c.push (.start label)).writes? w ≠ some n :=
    fun w n hw hn => by
      obtain ⟨q, hq, hcomputes⟩ := Option.bind_eq_some_iff.mp hn
      obtain ⟨-, rfl⟩ := eq_of_getElem?_push hw hq
      cases hcomputes
  exact {
    first_lt := by simp
    lo_le := Nat.le_refl _
    targets := fun t ht => by
      obtain ⟨i, hjump⟩ := (hc.isTarget_iff t).mp ht
      obtain ⟨first, last, ⟨-, ⟨_, -, hlast⟩, -⟩, -, -, -, hle⟩ := hc.inside i t hjump
      rw [next_push]
      exact (hle.trans_lt (lt_next_of_getElem? hlast)).le.trans (Nat.le_succ _)
    written := fun n hlow hhigh => absurd hhigh (Nat.not_lt.mpr hlow)
    bound := fun w n hw hn => absurd hn (hwrites w n hw)
    once := fun w _ n hw _ hn _ => absurd hn (hwrites w n hw)
    destination := fun i q n hi hq hn => by
      obtain ⟨-, rfl⟩ := eq_of_getElem?_push hi hq
      cases hn
    read := fun u q n hu hq hn => by
      obtain ⟨-, rfl⟩ := eq_of_getElem?_push hu hq
      cases hn }

namespace CompiledFunction

variable {r : CompiledFunction} {p : Progress}

/-- The temporaries of a function are written once. -/
theorem Closes.assigned (h : r.Closes p) (hc : r.opened.code.Complete) :
    r.closed.code.Assigned r.first r.opened.code.temps.size := by
  have hstart : (r.opened.appended (.start r.label)).code.Assigned r.first
      r.opened.code.temps.size := .start hc r.label
  obtain ⟨hbody, -⟩ := (statementSteps_assigned r.function.result _ _).statements _ r.body hstart
    (.refl 0 _) h.statements
  have hemits := statements_emits r.function.name r.function.result r.body (Nat.zero_le _)
    (.refl 0 _) h.statements
  have hpatched := hbody.patch (hemits.grows.continues_patch (Subset.refl _) _) (.inr rfl)
  exact hpatched.pushPlain rfl (writes?_push nofun) (forall_mem_nil _)

def innerQuads (r : CompiledFunction) : List Quad := r.patched.quads.toList.drop (r.first + 1)

def ownTemps (r : CompiledFunction) : List Ty :=
  r.closed.code.temps.toList.drop r.opened.code.temps.size

/-- The quads and temporaries of a function. -/
def codeSegment (r : CompiledFunction) : CodeSegment :=
  ⟨r.path, r.header, r.label, r.innerQuads, r.ownTemps⟩

theorem Closes.quads_eq (h : r.Closes p) :
    r.closed.code.quads.toList = r.opened.code.quads.toList ++ r.codeSegment.quads := by
  have hprefix : (r.opened.code.push (.start r.label)).quads.toList <+: r.patched.quads.toList :=
    prefix_iff_getElem?.mpr fun i hi => by
      rw [Array.length_toList] at hi
      rw [Array.getElem?_toList, h.grows.below i hi, Array.getElem_toList,
        Array.getElem?_eq_getElem hi]
  have hlength : (r.opened.code.push (.start r.label)).quads.toList.length = r.first + 1 := by
    simp [Code.push, first, Code.next]
  have hpatched := prefix_iff_eq_append.mp hprefix
  rw [hlength, Code.push, Array.toList_push] at hpatched
  calc r.closed.code.quads.toList
    _ = r.patched.quads.toList ++ [.finish r.label] := by
      rw [closed_code, Code.push, Array.toList_push]
    _ = r.opened.code.quads.toList ++ [.start r.label] ++ r.innerQuads ++ [.finish r.label] := by
      rw [innerQuads, hpatched]
    _ = r.opened.code.quads.toList ++ r.codeSegment.quads := by
      simp [codeSegment, CodeSegment.quads]

theorem Closes.temps_eq (h : r.Closes p) :
    r.closed.code.temps.toList = r.opened.code.temps.toList ++ r.codeSegment.temps := by
  have hprefix : r.opened.code.temps.toList <+: r.closed.code.temps.toList :=
    prefix_iff_getElem?.mpr fun i hi => by
      rw [Array.getElem?_toList]
      exact h.precedes.ext.temps i _ (by simp)
  exact (prefix_iff_eq_append.mp hprefix).symm

theorem Closes.length_innerQuads (h : r.Closes p) : r.first + r.innerQuads.length + 1 = r.last := by
  have hlt := h.first_lt_last
  have hnext := Closes.next_patched r
  rw [Code.next] at hnext
  rw [innerQuads, length_drop, Array.length_toList, hnext]
  omega

/-- The output of a call is the function that it calls. -/
theorem Closes.op_ne_call_of_computes? {i n : Nat} {q : Quad} (h : r.Closes p) (hi : r.first ≤ i)
    (hq : r.closed.code.quads[i]? = some q) (hn : q.computes? = some n) : q.op ≠ .call := by
  intro hop
  have hwell := (h.wellFormed hi hq).1
  rw [Quad.WellFormed, hop] at hwell
  obtain ⟨l, houtput, -⟩ := hwell
  obtain houtput' | houtput' := Quad.output_of_computes? hn <;> cases houtput.symm.trans houtput'

/-- No function starts or ends inside another one. -/
theorem Closes.inner_op {q : Quad} (h : r.Closes p) (hq : q ∈ r.innerQuads) :
    q.op ≠ .unit ∧ q.op ≠ .endUnit := by
  obtain ⟨i, hi⟩ := mem_iff_getElem?.mp hq
  rw [innerQuads, getElem?_drop, Array.getElem?_toList] at hi
  refine (h.grows.wellFormed _ q ?_ hi).2
  rw [next_push]
  exact Nat.le_add_right _ _

end CompiledFunction

/-! ### One function after the other -/

/-- The functions follow each other in the code, from one moment to another. -/
inductive Tiles : Code → Code → List CompiledFunction → Prop
  | nil {c : Code} : Tiles c c []
  | cons {c' : Code} {r : CompiledFunction} {rs : List CompiledFunction} {p : Progress}
      (hcloses : r.Closes p) (rest : Tiles r.closed.code c' rs) :
      Tiles r.opened.code c' (r :: rs)

namespace Tiles

variable {c c1 c' : Code} {rs rs' : List CompiledFunction}

theorem append (h : Tiles c c1 rs) (h' : Tiles c1 c' rs') : Tiles c c' (rs ++ rs') := by
  induction h with
  | nil => exact h'
  | cons hcloses _ ih => exact .cons hcloses (ih h')

/-- The functions up to one of them. -/
theorem front {r : CompiledFunction} (h : Tiles c c' (rs ++ r :: rs')) :
    Tiles c r.opened.code rs := by
  induction rs generalizing c with
  | nil =>
    cases h with
    | cons hcloses rest => exact .nil
  | cons s rs ih =>
    cases h with
    | cons hcloses rest => exact .cons hcloses (ih rest)

/-- The code is put together from the segments of the functions. -/
theorem code_eq (h : Tiles c c' rs) :
    c'.quads.toList =
        c.quads.toList ++ (rs.map codeSegment).flatMap CodeSegment.quads ∧
      c'.temps.toList =
        c.temps.toList ++ (rs.map codeSegment).flatMap CodeSegment.temps := by
  induction h with
  | nil => simp
  | cons hcloses _ ih =>
    rw [hcloses.quads_eq, hcloses.temps_eq] at ih
    simpa using ih

end Tiles

theorem Declares.tiles {path : List Nat} {k : Nat} {ds : List Decl} {p p' : Progress}
    {rs : List CompiledFunction} (h : Declares path k ds p p' rs) : Tiles p.code p'.code rs := by
  induction h with
  | nil => exact .nil
  | vars hvars _ ih => rwa [code_declareVariables hvars] at ih
  | forward _ hintroduce _ ih => rwa [code_introduce hintroduce] at ih
  | function _ hintroduce hopen _ hcloses _ ihinner ihrest =>
    rw [code_openFunction hopen, code_introduce hintroduce] at ihinner
    rw [hcloses.code] at ihrest
    exact ihinner.append (.cons hcloses ihrest)

theorem Compiles.tiles {tree : Decl} {p : Progress} {rs : List CompiledFunction}
    (h : Compiles tree p rs) : Tiles {} p.code rs := by
  obtain ⟨r, p1, p2, inner, -, rfl, hinner, houter⟩ := h.outermost
  have htiles := hinner.tiles
  rw [houter.code] at htiles
  have hcode : p.code = r.closed.code := by rw [houter.final, houter.closes.code]
  rw [hcode]
  exact htiles.append (.cons houter.closes .nil)

/-! ### Programs -/

namespace Compiles

variable {tree : Decl} {p : Progress} {rs : List CompiledFunction} {r : CompiledFunction}

/-- A function uses its own temporaries in the code of the program. -/
theorem keeps (h : Compiles tree p rs) (hr : r ∈ rs) :
    p.code.Keeps r.first r.last r.opened.code.temps.size r.closed.code.temps.size := by
  obtain ⟨p1, hcloses⟩ := h.closes r hr
  have hassigned := hcloses.assigned (h.complete r hr)
  have hkept := h.spans.kept r hr
  have hnext := Closes.next_closed r
  have hquad : ∀ i, i ≤ r.last → p.code.quads[i]? = r.closed.code.quads[i]? :=
    fun i hi => hkept.below i (by omega)
  have hwrites : ∀ i, i ≤ r.last → p.code.writes? i = r.closed.code.writes? i :=
    fun i hi => writes?_of_below hkept.below (by omega)
  -- what a quad uses was written in front of it, and no jump leads in between
  have hused : ∀ w u q n, r.first ≤ w → w ≤ r.last → p.code.writes? w = some n → r.first ≤ u →
      u ≤ r.last → p.code.quads[u]? = some q → n ∈ q.reads →
        w < u ∧ ∀ i t, p.code.JumpsTo i t → w < t → u < t := by
    intro w u q n hw hw' hwn hu hu' hq hn
    rw [hwrites w hw'] at hwn
    rw [hquad u hu'] at hq
    obtain ⟨w', hfirst, hlt, hwn', hbetween⟩ := hassigned.read u q n hu hq hn
    obtain rfl := hassigned.once w w' n hw hfirst hwn hwn'
    refine ⟨hlt, fun i t hjump hwt => ?_⟩
    have htarget := (h.code_complete.1.isTarget_iff t).mpr ⟨i, hjump⟩
    by_cases ht : t < r.closed.code.next
    · rw [hkept.isTarget t ht] at htarget
      exact hbetween t htarget hwt
    · omega
  exact {
    named := fun i q n hi hi' hq hn => by
      rw [hquad i hi'] at hq
      obtain hn | hn | hn := Quad.mem_temps hn
      · obtain ⟨w, hw, -, hwn, -⟩ := hassigned.read i q n hi hq hn
        exact hassigned.bound w n hw hwn
      · refine hassigned.bound i n hi ?_
        rw [writes?_of_getElem? hq (hcloses.op_ne_call_of_computes? hi hq hn), hn]
      · exact hassigned.bound (i + 1) n (Nat.le_succ_of_le hi)
          (hassigned.destination i q n hi hq hn)
    written := fun n hlow hhigh => by
      obtain ⟨w, hw, hwn⟩ := hassigned.written n hlow hhigh
      have hlast := lt_next_of_writes? hwn
      -- the start and the end of the function write nothing
      have hne : w ≠ r.first := fun heq => by
        rw [heq, writes?_of_getElem? hcloses.quad_first nofun] at hwn
        cases hwn
      have hne' : w ≠ r.last := fun heq => by
        rw [heq, writes?_of_getElem? (Closes.quad_last r) nofun] at hwn
        cases hwn
      refine ⟨w, by omega, by omega, fun i hi hi' => ?_⟩
      rw [hwrites i hi']
      constructor
      · exact fun hin => hassigned.once i w n hi hw hin hwn
      · rintro rfl
        exact hwn
    result := fun i q n hi hi' hq hn => by
      rw [hquad i hi'] at hq
      have hwn := hassigned.destination i q n hi hq hn
      have hlast := lt_next_of_writes? hwn
      rwa [hwrites (i + 1) (by omega)]
    used := hused
    passed := fun w u q n hw hw' hwn hu hu' hq hn => by
      obtain ⟨hwu, hjumps⟩ := hused w u q n hw hw' hwn hu hu' hq hn
      exact not_passes hw hwu hjumps }

theorem segmented (h : Compiles tree p rs) (htext : tree.InText) :
    Segmented tree p.code (rs.map codeSegment) := by
  have hdefinitions : (rs.map codeSegment).map (fun s => (s.path, s.header)) =
      (tree.definitions [] []).map fun d => (d.path, d.header) := by
    rw [map_map]
    exact map_eq_map_of_forall₂ (h.realizes htext) fun r d hrealizes => by
      simp [codeSegment, hrealizes.path, hrealizes.header]
  have hpaths : (rs.map codeSegment).map CodeSegment.path =
      (tree.definitions [] []).map Definition.path := by
    simpa [Function.comp_def] using congrArg (map Prod.fst) hdefinitions
  have hcode := h.tiles.code_eq
  exact {
    definitions := hdefinitions
    ordered := hpaths ▸ tree.pairwise_definitions [] []
    labels := forall_mem_map.mpr fun r hr => by
      obtain ⟨p1, hcloses⟩ := h.closes r hr
      exact (h.agree_locals hr).2.trans (eq_of_signature hcloses.header).1
    nodup := by
      rw [map_map]
      exact h.labelled.1
    quads := hcode.1
    temps := hcode.2
    inner := forall_mem_map.mpr fun r hr q hq => by
      obtain ⟨p1, hcloses⟩ := h.closes r hr
      exact hcloses.inner_op hq
    keeps := fun front s rest heq => by
      obtain ⟨rs1, rs2, rfl, rfl, hrest⟩ := map_eq_append_iff.mp heq
      obtain ⟨r, rs3, rfl, rfl, -⟩ := map_eq_cons_iff.mp hrest
      have hr : r ∈ rs1 ++ r :: rs3 := by simp
      obtain ⟨p1, hcloses⟩ := h.closes r hr
      obtain ⟨hquads, htemps⟩ := h.tiles.front.code_eq
      have hfirst := congrArg length hquads
      have hlow := congrArg length htemps
      have hhigh := congrArg length hcloses.temps_eq
      simp only [length_append, Array.length_toList, length_nil, Nat.zero_add]
        at hfirst hlow hhigh
      have hkeeps := h.keeps hr
      rwa [hhigh, ← hcloses.length_innerQuads, first, Code.next, hfirst, hlow]
        at hkeeps }

end Compiles

/-- The code that is emitted for a text that compiles is segmented. -/
theorem segmented_of_compile {source : String} {c : Compilation} (h : (compile source).1 = .ok c) :
    ∃ lexemes tree p segments, Token.scan source = .ok lexemes ∧
      (Decl.read lexemes).1 = .ok tree ∧ Emit.program (some tree) {} = .ok () p ∧
      c = p.compilation tree ∧ Segmented tree p.code segments := by
  obtain ⟨lexemes, tree, p, hscan, hread, hrun, hc⟩ := emitted_of_compile h
  obtain ⟨rs, hcompiles⟩ := Emit.program_compiles hrun
  exact ⟨lexemes, tree, p, _, hscan, hread, hrun, hc,
    hcompiles.segmented (Decl.inText_of_read hscan hread)⟩

/-- Functions inside each other, with a call in the condition of a loop. -/
def loopingCalls : String :=
  "function main(): nothing;
function outer(n: int): int;
function inner(a: int): int; begin return a + 1; end
begin while inner(n) < 3 do n := inner(n) * 2; return n; end
function last(): nothing; begin puti(outer(1)); end
begin last(); end"

/-- The four functions come in the order in which they are completed. -/
theorem segmented_of_compile_loopingCalls : ∃ c, (compile loopingCalls).1 = .ok c ∧
    ∃ tree p segments, Emit.program (some tree) {} = .ok () p ∧ c = p.compilation tree ∧
      Segmented tree p.code segments ∧
      segments.map (fun s => s.header.name) = ["inner", "outer", "last", "main"] := by
  have hknown : (treeOf? loopingCalls).any (fun tree => (progress? tree).any fun _ =>
      (tree.definitions [] []).map (fun d => d.header.name) =
        ["inner", "outer", "last", "main"]) = true := by
    decide +kernel
  obtain ⟨c, hc⟩ := exists_compilation hknown
  obtain ⟨lexemes, tree, p, segments, hscan, hread, hrun, heq, hsegments⟩ :=
    segmented_of_compile hc
  refine ⟨c, hc, tree, p, segments, hrun, heq, hsegments, ?_⟩
  simp only [treeOf?_eq hscan hread, Option.any_some, Option.any_eq_true, decide_eq_true_eq]
    at hknown
  obtain ⟨-, -, hnames⟩ := hknown
  have hheaders := congrArg (List.map fun x => x.2.name) hsegments.definitions
  rw [map_map, map_map] at hheaders
  exact hheaders.trans hnames

end BlockLang
