import BlockLang.Proofs.Grammar.Legible
import BlockLang.Proofs.Program.Binding
import BlockLang.Proofs.Program.Lines

/-!
# Labels, jumps and calls of a program

The assembly of a program consists of its start, one segment of lines for each function of the
tree, and the literals. No label is defined twice. A jump stays in its segment. A call leads to the
segment of the function that scoping gives to the called name, or to a standard routine.
-/

namespace BlockLang

open Assembly Emit FunctionLabel Instruction LabelUse List Stmt

/-- The lines of a function of the tree. -/
structure Segment where
  definition : Definition
  label : String
  lines : List Instruction

/-- A call of a name leads to the segment of the function that the name stands for, or to
the standard routine. -/
def Leads (tree : Decl) (segments : List Segment) (levels : List Enclosing) (x l : String) : Prop :=
  match meaning? tree levels x with
  | some (.function path) => ∃ s ∈ segments, s.definition.path = path ∧ s.label = l
  | some (.routine name) =>
      name ∈ FunctionDecl.standard.map FunctionDecl.name ∧ l = (standard name).text
  | _ => False

/-- How the lines of a program refer to each other. -/
structure Linked (tree : Decl) (lines : List Instruction) (segments : List Segment) : Prop where
  /-- The functions of the tree are there, each with its own path. -/
  definitions : segments.map Segment.definition = tree.definitions [] []
  paths : (segments.map fun s => s.definition.path).Nodup
  /-- The segments stand between the start, which calls the program, and the literals. -/
  layout : ∃ start data, lines = start ++ segments.flatMap Segment.lines ++ data ∧
    labels start = ["main"] ∧ jumps start = [] ∧
    (∃ s ∈ segments, s.definition.path = [] ∧ calls start = [s.label]) ∧
    (∃ n, labels data = (List.range n).map stringLabel) ∧
    jumps data = [] ∧ calls data = []
  /-- A segment starts with its label. Others are those of its end and of its quads. -/
  head : ∀ s ∈ segments, s.lines.head? = some (.label s.label)
  labels : ∀ s ∈ segments, ∀ l ∈ labels s.lines,
    l = s.label ∨ l = s.label ++ "_end" ∨ ∃ n, l = quadLabel n
  /-- Every label is defined once, and none is that of a standard routine. -/
  nodup : (Instruction.labels lines).Nodup
  standard : ∀ g ∈ FunctionDecl.standard,
    (standard g.name).text ∉ Instruction.labels lines
  /-- Jumps stay in their segment. -/
  jumps : ∀ s ∈ segments, Instruction.jumps s.lines ⊆ Instruction.labels s.lines
  /-- The calls are those of the tree, and they lead where scoping says. -/
  calls : ∀ s ∈ segments, List.Forall₂ (Leads tree segments s.definition.levels)
    (calledAll s.definition.body) (calls s.lines)

/-! ### Calls of a function -/

namespace CompiledFunction.Closes

variable {r : CompiledFunction} {p : Progress}

/-- The calls among the lines of a function are those among its quads. -/
theorem calls_quads (h : r.Closes p) (hopened : r.opened.Settled) :
    calls r.lines =
      ((r.closed.code.quads.toList.drop r.first).filterMap Quad.callee?).map
        FunctionLabel.text := by
  have hquad : ∀ (label : FunctionLabel) (q : Quad),
      (q.uses label).filterMap called? = (q.callee?.map FunctionLabel.text).toList := by
    intro label q
    obtain ⟨op, first, second, output⟩ := q
    unfold Quad.uses Quad.callee?
    cases op <;> cases output <;> simp [called?]
    all_goals rename_i o; cases o <;> simp [called?]
  have hcall : ∀ (q : Quad) (n : Nat), (r.site.uses q n).filterMap called? =
      (q.callee?.map FunctionLabel.text).toList := by
    intro q n
    rw [FunctionSite.uses, filterMap_append, hquad]
    split <;> simp [called?]
  have hquads : r.quads.map Prod.fst = r.closed.code.quads.toList.drop r.first := by
    rw [quads, zipIdx_map_fst]
  rw [calls, (h.appends hopened).2, filterMap_flatMap, ← hquads,
    filterMap_map, map_filterMap, filterMap_eq_flatMap_toList]
  exact congrArg (List.flatMap · r.quads) (funext fun x => hcall x.1 x.2)

/-- The calls among the quads of a function are those of its tree. -/
theorem callees_quads (h : r.Closes p) :
    List.Forall₂ (fun x label => r.opened.env.callee? x = some label) (calledAll r.body)
      ((r.closed.code.quads.toList.drop r.first).filterMap Quad.callee?) := by
  have hemits := statements_emits r.function.name r.function.result r.body (Nat.zero_le _)
    (.refl 0 _) h.statements
  obtain ⟨-, hbody⟩ := (statementSteps_calls r.function.result).statements _ r.body trivial
    (.refl 0 _) h.statements
  rw [flatMap_called] at hbody
  have hcalls : (r.opened.appended (.start r.label)).Calls r.closed (calledAll r.body) :=
    (hbody.patch (hemits.grows.continues_patch (List.Subset.refl _) _)).appended rfl
  have hcallees := hcalls.callees
  have hstart : (r.opened.appended (.start r.label)).code.callees = r.opened.code.callees :=
    Code.callees_push _ rfl
  -- the quads in front of the function are those that were there before
  have hfront : r.closed.code.quads.toList.take r.first = r.opened.code.quads.toList := by
    refine ext_getElem? fun i => ?_
    by_cases hi : i < r.first
    · rw [getElem?_take_of_lt hi, Array.getElem?_toList, Array.getElem?_toList,
        h.precedes.below i hi]
    · rw [getElem?_eq_none (by simp; omega), getElem?_eq_none]
      exact Nat.le_of_not_lt hi
  rw [hstart, Code.callees, ← take_append_drop r.first r.closed.code.quads.toList,
    hfront, filterMap_append, map_append] at hcallees
  have hcalled : List.Forall₂ (· = ·) ((calledAll r.body).map r.opened.env.callee?)
      (((r.closed.code.quads.toList.drop r.first).filterMap Quad.callee?).map some) := by
    rw [forall₂_eq_eq_eq]
    exact (append_cancel_left hcallees).symm
  rwa [forall₂_map_left_iff, forall₂_map_right_iff] at hcalled

end CompiledFunction.Closes

/-! ### Programs -/

section Programs

variable {tree : Decl} {p : Progress} {rs : List CompiledFunction}

/-- A segment for each function of a program. -/
def segmentsOf (rs : List CompiledFunction) (ds : List Definition) : List Segment :=
  (rs.zip ds).map fun (r, d) => ⟨d, r.label.text, r.lines⟩

variable {ds : List Definition} (h : List.Forall₂ (Realizes tree rs) rs ds)

include h

theorem definition_segmentsOf : (segmentsOf rs ds).map Segment.definition = ds := by
  rw [segmentsOf, map_map]
  exact map_snd_zip (by rw [h.length_eq])

theorem lines_segmentsOf :
    (segmentsOf rs ds).flatMap Segment.lines = rs.flatMap CompiledFunction.lines := by
  have hrs : (rs.zip ds).map Prod.fst = rs := map_fst_zip (by rw [h.length_eq])
  rw [segmentsOf, flatMap_map]
  conv_rhs => rw [← hrs, flatMap_map]

/-- A segment belongs to a function of the program that realizes its definition. -/
theorem exists_of_mem_segmentsOf {s : Segment} (hs : s ∈ segmentsOf rs ds) :
    ∃ r ∈ rs, s.label = r.label.text ∧ s.lines = r.lines ∧
      Realizes tree rs r s.definition := by
  obtain ⟨⟨r, d⟩, hmem, rfl⟩ := mem_map.mp hs
  exact ⟨r, (of_mem_zip hmem).1, rfl, rfl, (forall₂_iff_zip.mp h).2 hmem⟩

/-- Every function of the program has its segment. -/
theorem exists_segment {r : CompiledFunction} (hr : r ∈ rs) :
    ∃ s ∈ segmentsOf rs ds, s.definition.path = r.path ∧ s.label = r.label.text := by
  have hrs : (rs.zip ds).map Prod.fst = rs := map_fst_zip (by rw [h.length_eq])
  rw [← hrs] at hr
  obtain ⟨⟨r, d⟩, hmem, rfl⟩ := mem_map.mp hr
  exact ⟨_, mem_map_of_mem hmem, ((forall₂_iff_zip.mp h).2 hmem).path, rfl⟩

/-- A name that is visible leads to the label of the definition that is meant. -/
theorem leads_of_visible {env : Environment} {levels : List Enclosing}
    (hvisible : Visible tree rs levels env) {x : String} {label : FunctionLabel}
    (hlabel : env.callee? x = some label) :
    Leads tree (segmentsOf rs ds) levels x label.text := by
  obtain ⟨f, scope, hfind, rfl⟩ := Environment.find?_of_callee? hlabel
  obtain ⟨hops, bound, hfound, -, hintroduces⟩ := hvisible.exists_binding hfind
  rw [Leads, meaning?, hfound, Option.bind_some]
  cases hintroduces with
  | @function path _ _ _ _ r _ _ _ _ hr hr' hpath =>
    obtain ⟨s, hs, hs', hl⟩ := exists_segment h hr
    dsimp only [Bound.meaning?]
    rw [hpath]
    exact ⟨s, hs, hs', by rw [hl, hr']⟩
  | routine hf hx => exact ⟨hx ▸ mem_map_of_mem hf, by rw [calleeLabel_standard hf, ← hx]⟩

omit h

/-- No label of a program is that of a standard routine. -/
theorem Compiles.standard_notMem_labels (h : Compiles tree p rs) {g : FunctionDecl}
    (hg : g ∈ FunctionDecl.standard) :
    (standard g.name).text ∉ labels p.assembly.program := by
  obtain ⟨r, -, -, hprogram⟩ := h.program_eq
  have hinitial : initial (standard g.name).text = some '_' :=
    initial_text _
  have hstart : labels (start r.label).lines.toList = ["main"] := rfl
  rw [hprogram, labels_append, labels_append, labels_flatMap,
    labels_data, hstart]
  intro hmem
  rcases mem_append.mp hmem with hmem | hmem
  · rcases mem_append.mp hmem with hmem | hmem
    · rw [mem_singleton.mp hmem] at hinitial
      simp at hinitial
    · obtain ⟨s, hs, hl⟩ := mem_flatMap.mp hmem
      obtain ⟨p1, hcloses⟩ := h.closes s hs
      obtain ⟨depth, hdepth, hle⟩ := h.labelled.2 s hs
      rw [hcloses.mem_labels (h.settled s hs)] at hl
      obtain hl | hl | ⟨t, -, -, -, hl⟩ := hl
      · exact text_ne_standard (isDeep_of_nonneg hdepth hle) hg hl.symm
      · exact endLabel_ne_standard _ hg hl.symm
      · rw [hl] at hinitial
        simp at hinitial
  · obtain ⟨n, -, hl⟩ := mem_map.mp hmem
    rw [← hl] at hinitial
    simp at hinitial

theorem Compiles.linked (h : Compiles tree p rs) (htext : tree.InText) :
    Linked tree p.assembly.program (segmentsOf rs (tree.definitions [] [])) := by
  have hrealizes := h.realizes htext
  obtain ⟨r, hr, hpath, hprogram⟩ := h.program_eq
  have hdefinitions := definition_segmentsOf hrealizes
  exact {
    definitions := hdefinitions
    paths := by
      have hnodup := tree.nodup_definitions [] []
      rwa [← hdefinitions, map_map] at hnodup
    layout := by
      obtain ⟨s, hs, hs', hlabel⟩ := exists_segment hrealizes hr
      refine ⟨(start r.label).lines.toList, p.assembly.data, ?_, rfl, rfl,
        ⟨s, hs, hs'.trans hpath, ?_⟩, ⟨_, labels_data _⟩, ?_, ?_⟩
      · rw [hprogram, lines_segmentsOf hrealizes]
      · rw [hlabel]
        rfl
      · simp [Instruction.jumps, uses_data, jumped?]
      · simp [Instruction.calls, uses_data, called?]
    head := by
      intro s hs
      obtain ⟨r, hr, hlabel, hlines, -⟩ := exists_of_mem_segmentsOf hrealizes hs
      obtain ⟨p1, hcloses⟩ := h.closes r hr
      rw [hlabel, hlines, hcloses.head_lines (h.settled r hr) (h.complete r hr)]
    labels := by
      intro s hs l hl
      obtain ⟨r, hr, hlabel, hlines, -⟩ := exists_of_mem_segmentsOf hrealizes hs
      obtain ⟨p1, hcloses⟩ := h.closes r hr
      rw [hlines, hcloses.mem_labels (h.settled r hr)] at hl
      rw [hlabel]
      rcases hl with hl | hl | ⟨t, -, -, -, hl⟩
      · exact .inl hl
      · exact .inr (.inl hl)
      · exact .inr (.inr ⟨t, hl⟩)
    nodup := h.nodup_labels
    standard := fun g hg => h.standard_notMem_labels hg
    jumps := by
      intro s hs
      obtain ⟨r, hr, -, hlines, -⟩ := exists_of_mem_segmentsOf hrealizes hs
      obtain ⟨p1, hcloses⟩ := h.closes r hr
      rw [hlines]
      exact hcloses.jumps_subset (h.settled r hr)
    calls := by
      intro s hs
      obtain ⟨r, hr, -, hlines, hreal⟩ := exists_of_mem_segmentsOf hrealizes hs
      obtain ⟨p1, hcloses⟩ := h.closes r hr
      rw [hlines, hreal.body, hcloses.calls_quads (h.settled r hr), forall₂_map_right_iff]
      exact hcloses.callees_quads.imp fun x label => leads_of_visible hrealizes hreal.visible }

end Programs

/-! ### Texts -/

/-- A text that compiles has been read as a tree, for which code has been emitted. -/
theorem emitted_of_compile {source : String} {c : Compilation} (h : (compile source).1 = .ok c) :
    ∃ lexemes tree p, Token.scan source = .ok lexemes ∧ (Decl.read lexemes).1 = .ok tree ∧
      program (some tree) {} = .ok () p ∧ c = p.compilation tree := by
  obtain ⟨e, he⟩ | ⟨e, he⟩ | ⟨lexemes, tree, hscan, hread, heq⟩ := compile_cases source
  · cases h.symm.trans he
  · cases h.symm.trans he
  rw [heq, compileTree] at h
  cases hrun : program (some tree) {} with
  | error e p => rw [hrun] at h; cases h
  | ok u p =>
    rw [hrun] at h
    cases h
    exact ⟨lexemes, tree, p, hscan, hread, hrun, rfl⟩

/-- A text that compiles has been read as a tree with a derivation, and its assembly has
the lines of the program. -/
theorem compiles_of_compile {source : String} {c : Compilation} (h : (compile source).1 = .ok c) :
    ∃ lexemes tree p rs, Token.scan source = .ok lexemes ∧ (Decl.read lexemes).1 = .ok tree ∧
      Compiles tree p rs ∧ c = p.compilation tree := by
  obtain ⟨lexemes, tree, p, hscan, hread, hrun, hc⟩ := emitted_of_compile h
  obtain ⟨rs, hcompiles⟩ := program_compiles hrun
  exact ⟨lexemes, tree, p, rs, hscan, hread, hcompiles, hc⟩

/-- The lines that are emitted for a text that compiles are linked. -/
theorem linked_of_compile {source : String} {c : Compilation} (h : (compile source).1 = .ok c) :
    ∃ lexemes tree p segments, Token.scan source = .ok lexemes ∧
      (Decl.read lexemes).1 = .ok tree ∧ program (some tree) {} = .ok () p ∧
      c = p.compilation tree ∧ Linked tree p.assembly.program segments := by
  obtain ⟨lexemes, tree, p, hscan, hread, hrun, hc⟩ := emitted_of_compile h
  obtain ⟨rs, hcompiles⟩ := program_compiles hrun
  exact ⟨lexemes, tree, p, _, hscan, hread, hrun, hc,
    hcompiles.linked (Decl.inText_of_read hscan hread)⟩

/-- A program in which a function is called before its definition, inside a function that
has one of the same name, and a routine that is hidden in part of the program. -/
def homonyms : String :=
  "function main(): nothing;
function f(): nothing; forward;
function g(): nothing;
function f(): nothing; begin putc('a'); end
function puti(n: int): nothing; begin main(); end
begin f(); puti(1); end
function f(): nothing; begin g(); puti(2); end
begin f(); end"

theorem linked_of_compile_homonyms : ∃ c, (compile homonyms).1 = .ok c ∧
    ∃ lexemes tree p segments, Token.scan homonyms = .ok lexemes ∧
      (Decl.read lexemes).1 = .ok tree ∧ program (some tree) {} = .ok () p ∧
      c = p.compilation tree ∧ Linked tree p.assembly.program segments := by
  obtain ⟨c, hc⟩ := exists_eq_ok (compile homonyms).1 (by decide +kernel)
  exact ⟨c, hc, linked_of_compile hc⟩

end BlockLang
