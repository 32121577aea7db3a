import BlockLang.Proofs.Assembly.Lines
import BlockLang.Proofs.Assembly.Symbol
import BlockLang.Proofs.Program.Code
import BlockLang.Proofs.Program.Label

/-!
# The lines of a program

The lines of a program are those of its start, then those of its functions in the order
in which these are completed, and then the string literals. The labels that a function
defines are its own, that of its end and those of the targets of its jumps; so no label
is defined twice.
-/

namespace BlockLang

open Assembly CompiledFunction FunctionLabel Instruction LabelUse List Lower

variable {u : LabelUse} {l : String}

namespace LabelUse

def defined? : LabelUse → Option String
  | definition l => some l
  | _ => none

def jumped? : LabelUse → Option String
  | jump l => some l
  | _ => none

def called? : LabelUse → Option String
  | call l => some l
  | _ => none

theorem defined?_eq_some : u.defined? = some l ↔ u = .definition l := by
  cases u <;> simp [defined?]

theorem jumped?_eq_some : u.jumped? = some l ↔ u = .jump l := by
  cases u <;> simp [jumped?]

end LabelUse

namespace Instruction

def labels (lines : List Instruction) : List String := (uses lines).filterMap defined?

def jumps (lines : List Instruction) : List String := (uses lines).filterMap jumped?

def calls (lines : List Instruction) : List String := (uses lines).filterMap called?

theorem labels_append (l l' : List Instruction) : labels (l ++ l') = labels l ++ labels l' := by
  rw [labels, uses_append, filterMap_append, labels, labels]

theorem labels_flatMap {α : Type} (f : α → List Instruction) (xs : List α) :
    labels (xs.flatMap f) = xs.flatMap fun x => labels (f x) := by
  induction xs with
  | nil => rfl
  | cons x xs ih => rw [flatMap_cons, labels_append, ih, flatMap_cons]

theorem mem_labels {lines : List Instruction} : l ∈ labels lines ↔ .definition l ∈ uses lines := by
  simp [labels, mem_filterMap, defined?_eq_some]

theorem mem_jumps {lines : List Instruction} : l ∈ jumps lines ↔ .jump l ∈ uses lines := by
  simp [jumps, mem_filterMap, jumped?_eq_some]

end Instruction

/-! ### The lines of a function -/

namespace CompiledFunction

def lines (r : CompiledFunction) : List Instruction :=
  r.lowered.lines.toList.drop r.opened.assembly.lines.size

/-- The quads of a function with their numbers. -/
def quads (r : CompiledFunction) : List (Quad × Nat) :=
  (r.closed.code.quads.toList.drop r.first).zipIdx r.first

variable {r : CompiledFunction} {p : Progress} {i : Nat} {q : Quad}

theorem mem_quads : (q, i) ∈ r.quads ↔ r.first ≤ i ∧ r.closed.code.quads[i]? = some q := by
  rw [quads, mk_mem_zipIdx_iff_le_and_getElem?_sub, getElem?_drop, Array.getElem?_toList]
  refine and_congr_right fun hle => ?_
  rw [Nat.add_sub_cancel' hle]

/-- The quads of a function have different numbers. -/
theorem pairwise_quads (r : CompiledFunction) : r.quads.Pairwise fun x y => x.2 ≠ y.2 := by
  have hnodup : (r.quads.map Prod.snd).Nodup := by
    rw [quads, zipIdx_map_snd]
    exact nodup_range'
  exact pairwise_map.mp hnodup

namespace Closes

/-- A function adds lines, and their uses are those of its quads. -/
theorem appends (h : r.Closes p) (hopened : r.opened.Settled) :
    r.opened.assembly.Appends r.lowered r.lines ∧
      uses r.lines = r.quads.flatMap fun (q, n) => r.site.uses q n := by
  obtain ⟨lines, happends, huses⟩ := Lower.body_uses h.body
  obtain rfl : r.lines = lines := by
    rw [CompiledFunction.lines, happends.lines, ← Array.length_toList, drop_left]
  rw [hopened.quadsDone] at huses
  exact ⟨happends, huses⟩

theorem mem_uses (h : r.Closes p) (hopened : r.opened.Settled) :
    u ∈ uses r.lines ↔
      ∃ i q, r.first ≤ i ∧ r.closed.code.quads[i]? = some q ∧ u ∈ r.site.uses q i := by
  rw [(h.appends hopened).2, mem_flatMap]
  constructor
  · rintro ⟨⟨q, i⟩, hmem, hu⟩
    obtain ⟨hi, hq⟩ := mem_quads.mp hmem
    exact ⟨i, q, hi, hq, hu⟩
  · rintro ⟨i, q, hi, hq, hu⟩
    exact ⟨(q, i), mem_quads.mpr ⟨hi, hq⟩, hu⟩

theorem definition_mem_uses {site : FunctionSite} :
    .definition l ∈ site.uses q i ↔
      site.code.isTarget i ∧ l = quadLabel i ∨ q.op = .unit ∧ l = site.label.text ∨
        q.op = .endUnit ∧ l = endLabel site.label := by
  obtain ⟨op, first, second, output⟩ := q
  have hquad : .definition l ∈ Quad.uses site.label ⟨op, first, second, output⟩ ↔
      op = .unit ∧ l = site.label.text ∨ op = .endUnit ∧ l = endLabel site.label := by
    cases op <;> cases output <;> simp [Quad.uses]
    all_goals rename_i o; cases o <;> simp
  unfold FunctionSite.uses
  rw [mem_append, hquad]
  refine or_congr_left ?_
  split
  · rename_i htarget
    simp [htarget]
  · rename_i htarget
    simp [htarget]

/-- The labels of a function: its own, that of its end and those of its targets. -/
theorem mem_labels (h : r.Closes p) (hopened : r.opened.Settled) {l : String} :
    l ∈ Instruction.labels r.lines ↔ l = r.label.text ∨ l = endLabel r.label ∨
      ∃ t, r.first ≤ t ∧ t ≤ r.last ∧ r.closed.code.isTarget t ∧ l = quadLabel t := by
  rw [Instruction.mem_labels, h.mem_uses hopened]
  constructor
  · rintro ⟨i, q, hi, hq, hu⟩
    have hlt := Code.lt_next_of_getElem? hq
    rw [next_closed] at hlt
    obtain ⟨htarget, hl⟩ | ⟨-, hl⟩ | ⟨-, hl⟩ := definition_mem_uses.mp hu
    · exact .inr (.inr ⟨i, hi, Nat.le_of_lt_succ hlt, htarget, hl⟩)
    · exact .inl hl
    · exact .inr (.inl hl)
  · rintro (hl | hl | ⟨t, hlow, hhigh, htarget, hl⟩)
    · exact ⟨r.first, _, Nat.le_refl _, h.quad_first,
        definition_mem_uses.mpr (.inr (.inl ⟨rfl, hl⟩))⟩
    · exact ⟨r.last, _, h.first_lt_last.le, quad_last r,
        definition_mem_uses.mpr (.inr (.inr ⟨rfl, hl⟩))⟩
    · have hlt : t < r.closed.code.next := by
        rw [next_closed]
        exact Nat.lt_succ_of_le hhigh
      obtain ⟨q, hq⟩ : ∃ q, r.closed.code.quads[t]? = some q :=
        ⟨_, Array.getElem?_eq_getElem hlt⟩
      exact ⟨t, q, hlow, hq, definition_mem_uses.mpr (.inl ⟨htarget, hl⟩)⟩

/-- A jump of a function leads to one of its labels. -/
theorem jumps_subset (h : r.Closes p) (hopened : r.opened.Settled) :
    jumps r.lines ⊆ labels r.lines := by
  intro l hl
  rw [mem_jumps, h.mem_uses hopened] at hl
  obtain ⟨i, q, hi, hq, hu⟩ := hl
  rw [h.mem_labels hopened]
  have hjump : .jump l ∈ q.uses r.label := by
    unfold FunctionSite.uses at hu
    rcases mem_append.mp hu with hu | hu
    · split at hu <;> simp at hu
    · exact hu
  have htarget : ∀ t, q.output = some (.target t) → l = quadLabel t →
      ∃ t, r.first ≤ t ∧ t ≤ r.last ∧ r.closed.code.isTarget t ∧ l = quadLabel t := by
    intro t ht hl
    obtain ⟨hlow, hhigh, hmarked⟩ := h.target hi hq ht
    exact ⟨t, hlow.le, hhigh, hmarked, hl⟩
  unfold Quad.uses at hjump
  split at hjump
  · simp at hjump
  · simp at hjump
  · exact .inr (.inl (by simpa using hjump))
  · rename_i t _ ht
    exact .inr (.inr (htarget t ht (by simpa using hjump)))
  · rename_i t _ ht
    exact .inr (.inr (htarget t ht (by simpa using hjump)))
  · simp at hjump
  · simp at hjump

theorem nodup_definitions (site : FunctionSite) (q : Quad) (i : Nat) :
    ((site.uses q i).filterMap defined?).Nodup := by
  unfold FunctionSite.uses Quad.uses
  split <;> split <;>
    simp [filterMap_cons, defined?, quadLabel_ne_text,
      quadLabel_ne_endLabel]

/-- A label is defined by one quad only. -/
theorem eq_of_definition (h : r.Closes p) (hdeep : r.label.IsDeep) {i' : Nat} {q' : Quad}
    (hi : r.first ≤ i) (hq : r.closed.code.quads[i]? = some q) (hi' : r.first ≤ i')
    (hq' : r.closed.code.quads[i']? = some q') (hl : .definition l ∈ r.site.uses q i)
    (hl' : .definition l ∈ r.site.uses q' i') : i = i' := by
  -- only the first quad starts the function, and only the last one ends it
  have hunit : ∀ {q i}, r.first ≤ i → r.closed.code.quads[i]? = some q → q.op = .unit →
      i = r.first := by
    intro q i hi hq hop
    obtain ⟨hi, -⟩ | ⟨-, rfl⟩ | ⟨-, -, hnot, -⟩ := h.quad_cases hi hq
    · exact hi
    · cases hop
    · exact absurd hop hnot
  have hend : ∀ {q i}, r.first ≤ i → r.closed.code.quads[i]? = some q → q.op = .endUnit →
      i = r.last := by
    intro q i hi hq hop
    obtain ⟨-, rfl⟩ | ⟨hi, -⟩ | ⟨-, -, -, hnot⟩ := h.quad_cases hi hq
    · cases hop
    · exact hi
    · exact absurd hop hnot
  obtain ⟨-, rfl⟩ | ⟨hop, rfl⟩ | ⟨hop, rfl⟩ := definition_mem_uses.mp hl
  · obtain ⟨-, h2⟩ | ⟨-, h2⟩ | ⟨-, h2⟩ := definition_mem_uses.mp hl'
    · exact quadLabel_injective h2
    · exact absurd h2 (quadLabel_ne_text _ _)
    · exact absurd h2 (quadLabel_ne_endLabel _ _)
  · obtain ⟨-, h2⟩ | ⟨hop', -⟩ | ⟨-, h2⟩ := definition_mem_uses.mp hl'
    · exact absurd h2.symm (quadLabel_ne_text _ _)
    · exact (hunit hi hq hop).trans (hunit hi' hq' hop').symm
    · exact absurd h2 (text_ne_endLabel hdeep _)
  · obtain ⟨-, h2⟩ | ⟨-, h2⟩ | ⟨hop', -⟩ := definition_mem_uses.mp hl'
    · exact absurd h2.symm (quadLabel_ne_endLabel _ _)
    · exact absurd h2.symm (text_ne_endLabel hdeep _)
    · exact (hend hi hq hop).trans (hend hi' hq' hop').symm

theorem nodup_labels (h : r.Closes p) (hopened : r.opened.Settled) (hdeep : r.label.IsDeep) :
    (labels r.lines).Nodup := by
  rw [labels, (h.appends hopened).2, filterMap_flatMap]
  refine nodup_flatMap.mpr ⟨fun x _ => nodup_definitions _ _ _, ?_⟩
  refine r.pairwise_quads.imp_of_mem ?_
  rintro ⟨q, i⟩ ⟨q', i'⟩ hx hx' hne l hl hl'
  obtain ⟨hi, hq⟩ := mem_quads.mp hx
  obtain ⟨hi', hq'⟩ := mem_quads.mp hx'
  obtain ⟨u, hu, hdefined⟩ := mem_filterMap.mp hl
  obtain ⟨u', hu', hdefined'⟩ := mem_filterMap.mp hl'
  rw [defined?_eq_some] at hdefined hdefined'
  exact hne (h.eq_of_definition hdeep hi hq hi' hq' (hdefined ▸ hu) (hdefined' ▸ hu'))

end Closes

end CompiledFunction

/-! ### All lines -/

/-- Local declarations add the lines of their functions. -/
theorem Declares.appends {path : List Nat} {k : Nat} {ds : List Decl} {p p' : Progress}
    {rs : List CompiledFunction} (h : Declares path k ds p p' rs) (hp : p.Settled) :
    p.assembly.Appends p'.assembly (rs.flatMap lines) := by
  induction h with
  | nil => exact .refl _
  | vars hvars _ ih =>
    have hrest := ih (Emit.declareVariables_settled hp hvars)
    rwa [Emit.declareVariables_ok hvars] at hrest
  | forward hheader hintroduce _ ih =>
    have hrest := ih (Emit.introduce_settled hp hheader hintroduce)
    obtain ⟨_, _, -, -, hp1, -⟩ := Emit.introduce_cases hintroduce
    rwa [hp1] at hrest
  | function hpath hintroduce hopen inner hcloses _ ihinner ihrest =>
    have around := Declares.around hp hintroduce hopen inner hcloses
    obtain ⟨_, _, -, -, hp1, -⟩ := Emit.introduce_cases hintroduce
    have hinner := ihinner around.entered
    have hrest := ihrest around.closed
    rw [around.redeclares, hp1] at hinner
    rw [hcloses.assembly] at hrest
    rw [flatMap_append, flatMap_cons]
    exact hinner.trans ((hcloses.appends around.opened).1.trans hrest)

namespace Compiles

variable {tree : Decl} {p : Progress} {rs : List CompiledFunction}

/-- The lines of a program: its start, its functions and its literals. -/
theorem program_eq (h : Compiles tree p rs) : ∃ r ∈ rs, r.path = [] ∧
    p.assembly.program = (start r.label).lines.toList ++
      rs.flatMap lines ++ p.assembly.data := by
  obtain ⟨r, p1, p2, inner, -, rfl, hinner, houter⟩ := h.outermost
  have happends := hinner.appends houter.settled
  have hlast := (houter.closes.appends houter.opened).1
  have hassembly : p.assembly = r.lowered := by rw [houter.final, houter.closes.assembly]
  refine ⟨r, by simp, houter.path, ?_⟩
  rw [program, hassembly, (happends.trans hlast).lines, houter.assembly,
    flatMap_append, flatMap_singleton]

/-- The literals are labelled by their numbers. -/
theorem uses_data (a : Assembly) : uses a.data =
    (range a.strings.size).map fun n => .definition (stringLabel n) := by
  unfold data
  split
  · rename_i hempty
    rw [Array.isEmpty_iff.mp hempty]
    rfl
  · have hnumbers : a.strings.toList.zipIdx.map Prod.snd = range a.strings.size := by
      rw [zipIdx_map_snd, Array.length_toList, range_eq_range']
    rw [← hnumbers, map_map, uses, filterMap_cons, filterMap_map,
      ← filterMap_eq_map]
    rfl

theorem labels_data (a : Assembly) :
    labels a.data = (range a.strings.size).map stringLabel := by
  rw [labels, uses_data, filterMap_map, ← filterMap_eq_map]
  rfl

/-- The labels of a function are different from those of a later one. -/
theorem disjoint_labels (h : Compiles tree p rs) :
    rs.Pairwise fun r r' => (labels r.lines).Disjoint (labels r'.lines) := by
  obtain ⟨hnodup, hdepth⟩ := h.labelled
  refine (h.spans.ordered.and (pairwise_map.mp hnodup)).imp_of_mem ?_
  rintro r r' hr hr' ⟨hlast, hne⟩ l hl hl'
  obtain ⟨p1, hcloses⟩ := h.closes r hr
  obtain ⟨p2, hcloses'⟩ := h.closes r' hr'
  have hdeep : ∀ r ∈ rs, r.label.IsDeep := by
    intro r hr
    obtain ⟨depth, hd, hle⟩ := hdepth r hr
    exact isDeep_of_nonneg hd hle
  rw [hcloses.mem_labels (h.settled r hr)] at hl
  rw [hcloses'.mem_labels (h.settled r' hr')] at hl'
  obtain rfl | rfl | ⟨t, -, ht, -, rfl⟩ := hl
  · obtain h2 | h2 | ⟨t, -, -, -, h2⟩ := hl'
    · exact hne (eq_of_text_eq (hdeep r hr) (hdeep r' hr') h2)
    · exact text_ne_endLabel (hdeep r hr) _ h2
    · exact quadLabel_ne_text _ _ h2.symm
  · obtain h2 | h2 | ⟨t, -, -, -, h2⟩ := hl'
    · exact text_ne_endLabel (hdeep r' hr') _ h2.symm
    · exact hne (eq_of_endLabel_eq (hdeep r hr) (hdeep r' hr') h2)
    · exact quadLabel_ne_endLabel _ _ h2.symm
  · obtain h2 | h2 | ⟨t', ht', -, -, h2⟩ := hl'
    · exact quadLabel_ne_text _ _ h2
    · exact quadLabel_ne_endLabel _ _ h2
    · have := quadLabel_injective h2
      omega

/-- Labels of functions start with an underscore or with a capital letter. -/
theorem initial_of_mem_labels (h : Compiles tree p rs)
    (hl : l ∈ rs.flatMap fun r => labels r.lines) :
    initial l = some '_' ∨ initial l = some 'L' := by
  obtain ⟨r, hr, hl⟩ := mem_flatMap.mp hl
  obtain ⟨p1, hcloses⟩ := h.closes r hr
  rw [hcloses.mem_labels (h.settled r hr)] at hl
  obtain rfl | rfl | ⟨t, -, -, -, rfl⟩ := hl <;> simp

theorem nodup_labels (h : Compiles tree p rs) :
    (labels p.assembly.program).Nodup := by
  obtain ⟨r, -, -, hprogram⟩ := h.program_eq
  have hstart : labels (start r.label).lines.toList = ["main"] := rfl
  rw [hprogram, labels_append, labels_append, labels_flatMap,
    labels_data, hstart, append_assoc]
  have hfunctions : (rs.flatMap fun r => labels r.lines).Nodup := by
    refine nodup_flatMap.mpr ⟨fun r hr => ?_, h.disjoint_labels⟩
    obtain ⟨p1, hcloses⟩ := h.closes r hr
    obtain ⟨depth, hd, hle⟩ := h.labelled.2 r hr
    exact hcloses.nodup_labels (h.settled r hr) (isDeep_of_nonneg hd hle)
  have hliterals : ((range p.assembly.strings.size).map stringLabel).Nodup :=
    nodup_range.map fun _ _ => stringLabel_injective
  -- the start, the functions and the literals differ in the first characters
  refine nodup_append.mpr ⟨nodup_singleton _, nodup_append.mpr
    ⟨hfunctions, hliterals, ?_⟩, ?_⟩
  · rintro l hl l' hl' rfl
    obtain ⟨n, -, rfl⟩ := mem_map.mp hl'
    simpa using h.initial_of_mem_labels hl
  · rintro l hl l' hl' rfl
    obtain rfl := mem_singleton.mp hl
    rcases mem_append.mp hl' with hl' | hl'
    · simpa using h.initial_of_mem_labels hl'
    · obtain ⟨n, -, hn⟩ := mem_map.mp hl'
      simpa using congrArg initial hn

end Compiles

/-! ### Where the lines of a quad stand -/

theorem forM_append_ok {ε σ α : Type} {f : α → EStateM ε σ Unit} {xs ys : List α} {s s' : σ} :
    (xs ++ ys).forM f s = .ok () s' ↔
      ∃ s1, xs.forM f s = .ok () s1 ∧ ys.forM f s1 = .ok () s' := by
  induction xs generalizing s with
  | nil =>
    constructor
    · intro h
      exact ⟨s, rfl, h⟩
    · rintro ⟨_, h, h'⟩
      cases h
      exact h'
  | cons x xs ih =>
    constructor
    · intro h
      obtain ⟨_, s1, hx, hrest⟩ := bind_eq_ok_iff.mp h
      obtain ⟨s2, hxs, hys⟩ := ih.mp hrest
      exact ⟨s2, bind_eq_ok_iff.mpr ⟨_, s1, hx, hxs⟩, hys⟩
    · rintro ⟨s2, h, hys⟩
      obtain ⟨_, s1, hx, hxs⟩ := bind_eq_ok_iff.mp h
      exact bind_eq_ok_iff.mpr ⟨_, s1, hx, ih.mpr ⟨s2, hxs, hys⟩⟩

namespace CompiledFunction

/-- The assembly when the quads in front of a number have been lowered. -/
def before (r : CompiledFunction) (i : Nat) : Assembly :=
  match ((r.quads.take (i - r.first)).forM fun (q, n) => numbered r.site q n)
    r.opened.assembly with
  | .ok _ a | .error _ a => a

variable {r : CompiledFunction} {p : Progress} {i j : Nat} {q : Quad}

theorem before_first (r : CompiledFunction) : r.before r.first = r.opened.assembly := by
  rw [before, Nat.sub_self]
  rfl

theorem length_quads (r : CompiledFunction) : r.quads.length = r.last + 1 - r.first := by
  rw [quads, length_zipIdx, length_drop, Array.length_toList]
  exact congrArg (· - r.first) (Closes.next_closed r)

theorem getElem?_quads (hi : r.first ≤ i) (hq : r.closed.code.quads[i]? = some q) :
    r.quads[i - r.first]? = some (q, i) := by
  have hindex : r.first + (i - r.first) = i := by omega
  rw [quads, getElem?_zipIdx, getElem?_drop, Array.getElem?_toList, hindex, hq,
    Option.map_some]

namespace Closes

variable (h : r.Closes p)

include h

variable (hopened : r.opened.Settled)

include hopened

theorem forM_run :
    ∃ a, (r.quads.forM fun (q, n) => Lower.numbered r.site q n) r.opened.assembly = .ok () a ∧
      r.lowered =
        { a with quadsDone := r.site.code.next, tempsDone := r.site.code.temps.size } := by
  have hbody := h.body
  rw [body_eq] at hbody
  obtain ⟨_, a, hrun, hdone⟩ := bind_eq_ok_iff.mp hbody
  rw [hopened.quadsDone] at hrun
  injection hdone with _ hdone
  exact ⟨a, hrun, hdone.symm⟩

theorem before_run (i : Nat) :
    ((r.quads.take (i - r.first)).forM fun (q, n) => numbered r.site q n)
      r.opened.assembly = .ok () (r.before i) := by
  obtain ⟨a, hrun, -⟩ := h.forM_run hopened
  rw [← take_append_drop (i - r.first) r.quads] at hrun
  obtain ⟨a1, hfirst, -⟩ := forM_append_ok.mp hrun
  rw [before, hfirst]

/-- A quad is lowered in the assembly in front of it. -/
theorem numbered_run (hi : r.first ≤ i) (hq : r.closed.code.quads[i]? = some q) :
    numbered r.site q i (r.before i) = .ok () (r.before (i + 1)) := by
  have hrun := h.before_run hopened (i + 1)
  have hindex : i + 1 - r.first = i - r.first + 1 := by omega
  rw [hindex, take_add_one, getElem?_quads hi hq] at hrun
  obtain ⟨a, hfirst, hlast⟩ := forM_append_ok.mp hrun
  rw [h.before_run hopened i] at hfirst
  cases hfirst
  obtain ⟨_, a', hquad, hend⟩ := bind_eq_ok_iff.mp hlast
  cases hend
  exact hquad

/-- When all quads have been lowered the lines and the literals are complete. -/
theorem before_last :
    r.lowered.lines = (r.before (r.last + 1)).lines ∧
      r.lowered.strings = (r.before (r.last + 1)).strings := by
  obtain ⟨a, hrun, hlowered⟩ := h.forM_run hopened
  have hall := h.before_run hopened (r.last + 1)
  rw [← length_quads, take_length, hrun] at hall
  cases hall
  rw [hlowered]
  exact ⟨rfl, rfl⟩

/-- The lines of the quads between two numbers. -/
theorem appends_before (hi : r.first ≤ i) (hij : i ≤ j) (hj : j ≤ r.last + 1) :
    ∃ lines, (r.before i).Appends (r.before j) lines := by
  induction j, hij using Nat.le_induction with
  | base => exact ⟨[], .refl _⟩
  | succ j hij ih =>
    obtain ⟨lines, happends⟩ := ih (by omega)
    have hlt : j < r.closed.code.next := by
      rw [next_closed]
      omega
    have hrun := h.numbered_run hopened (hi.trans hij) (Array.getElem?_eq_getElem hlt)
    obtain ⟨more, happends', -⟩ := numbered_uses _ _ _ _ _ hrun
    exact ⟨lines ++ more, happends.trans happends'⟩

theorem head_lines (hcomplete : r.opened.code.Complete) :
    r.lines.head? = some (.label r.label.text) := by
  have hrun := h.numbered_run hopened (Nat.le_refl _) h.quad_first
  have htarget : r.site.code.isTarget r.first = false :=
    Bool.eq_false_iff.mpr (h.not_isTarget_first hcomplete)
  rw [before_first, numbered, htarget] at hrun
  have hfirst : (r.before (r.first + 1)).lines.toList = r.opened.assembly.lines.toList ++
      [.label r.label.text, .push base, move .ebp (.register .esp),
        .sub .esp (.immediate r.frame.size)] := by
    injection hrun with _ hrun
    rw [← hrun]
    exact Array.toList_appendList
  obtain ⟨more, hrest⟩ := h.appends_before hopened (Nat.le_succ r.first)
    (Nat.succ_le_succ h.first_lt_last.le) (Nat.le_refl _)
  rw [lines, (h.before_last hopened).1, hrest.lines, hfirst, append_assoc,
    ← Array.length_toList, drop_left]
  rfl

end Closes

end CompiledFunction

end BlockLang
