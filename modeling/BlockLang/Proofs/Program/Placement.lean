import BlockLang.Proofs.Processor.Basic
import BlockLang.Proofs.Program.Lines

/-!
# Where the lines of a program stand

The assembly in front of a quad is the beginning of that of the program, so the lines of a
quad have their places in the program. A label is defined once, and so the place of a label
is the place that is found for it.
-/

namespace BlockLang

open Assembly CompiledFunction.Closes List

variable {P : List String → Unit → List Instruction → Prop} {q : Quad}

/-! ### Lines in a program -/

namespace Assembly.Appends

variable {a a' b : Assembly} {l l' : List Instruction}

/-- Lines that were appended stay where they are. -/
theorem placed (h : a.Appends a' l) (h' : a'.Appends b l') :
    Instruction.Placed b.program a.lines.size l := by
  intro n i hn
  have hlt := (List.getElem?_eq_some_iff.mp hn).1
  rw [program, h'.lines, h.lines, append_assoc, append_assoc, ← Array.length_toList,
    getElem?_append_right (Nat.le_add_right _ _), Nat.add_sub_cancel_left,
    getElem?_append_left hlt, hn]

end Assembly.Appends

/-- A label that is defined once is found where it stands. -/
theorem Instruction.idxOf?_label {program : List Instruction} (h : (labels program).Nodup) {n : Nat}
    {l : String} (hn : program[n]? = some (.label l)) : program.idxOf? (.label l) = some n := by
  have hmem : ∀ {lines : List Instruction}, .label l ∈ lines → l ∈ labels lines := fun hl =>
    mem_labels.mpr (mem_filterMap.mpr ⟨_, hl, rfl⟩)
  obtain ⟨hlt, hat⟩ := List.getElem?_eq_some_iff.mp hn
  refine findIdx?_eq_some_iff_getElem.mpr ⟨hlt, by simp [hat], fun j hj hfound => ?_⟩
  -- two places would be two definitions
  have hj' : program[j] = .label l := by simpa using hfound
  rw [← take_append_drop (j + 1) program, labels_append] at h
  refine disjoint_of_nodup_append h (hmem ?_) (hmem ?_)
  · refine mem_of_getElem? (i := j) ?_
    rw [getElem?_take_of_lt (Nat.lt_succ_self j), getElem?_eq_getElem (hj.trans hlt), hj']
  · refine mem_of_getElem? (i := n - (j + 1)) ?_
    rw [getElem?_drop, Nat.add_sub_cancel' hj, hn]

/-- A quad is lowered after its own label. -/
theorem Lower.numbered_adds {site : FunctionSite} (h : Adds (quad site q) P) (n : Nat) :
    Adds (numbered site q n) fun strings b lines => ∃ l,
      lines = (if site.code.isTarget n then [.label (quadLabel n)] else []) ++ l ∧
        P strings b l := by
  unfold numbered
  dsimp only
  split
  · refine adds_bind (adds_emit (P := fun _ _ lines => lines = [.label (quadLabel n)])
      fun _ => rfl) (fun _ => h) ?_
    rintro strings _ b _ l rfl hl
    exact ⟨l, rfl, hl⟩
  · exact h.mono fun strings b l hl => ⟨l, rfl, hl⟩

/-! ### Functions of a program -/

/-- The place of the first line of a quad. -/
def CompiledFunction.line (r : CompiledFunction) (i : Nat) : Nat := (r.before i).lines.size

/-- The lines of a function among local declarations come before what is lowered later. -/
theorem Declares.lowered_appends {path : List Nat} {k : Nat} {ds : List Decl} {p p' : Progress}
    {rs : List CompiledFunction} (h : Declares path k ds p p' rs) (hp : p.Settled) :
    ∀ r ∈ rs, ∃ l, r.lowered.Appends p'.assembly l := by
  induction h with
  | nil => exact forall_mem_nil _
  | vars hvars _ ih => exact ih (Emit.declareVariables_settled hp hvars)
  | forward hheader hintroduce _ ih =>
    exact ih (Emit.introduce_settled hp hheader hintroduce)
  | function hpath hintroduce hopen inner hcloses rest ihinner ihrest =>
    have haround := Declares.around hp hintroduce hopen inner hcloses
    have hlast := (hcloses.appends haround.opened).1
    have hrest := rest.appends haround.closed
    rw [hcloses.assembly] at hrest
    refine forall_mem_append.mpr ⟨fun r hr => ?_, forall_mem_cons.mpr
      ⟨⟨_, hrest⟩, ihrest haround.closed⟩⟩
    obtain ⟨l, hl⟩ := ihinner haround.entered r hr
    exact ⟨_, (hl.trans hlast).trans hrest⟩

namespace Compiles

variable {tree : Decl} {p : Progress} {rs : List CompiledFunction} {r : CompiledFunction} {i : Nat}

variable (h : Compiles tree p rs) (hr : r ∈ rs)

include h hr

theorem lowered_appends : ∃ l, r.lowered.Appends p.assembly l := by
  obtain ⟨r0, p1, p2, inner, -, rfl, hinner, houter⟩ := h.outermost
  have hassembly : p.assembly = r0.lowered := by rw [houter.final, houter.closes.assembly]
  rw [hassembly]
  rcases mem_append.mp hr with hr | hr
  · obtain ⟨l, hl⟩ := hinner.lowered_appends houter.settled r hr
    exact ⟨_, hl.trans (houter.closes.appends houter.opened).1⟩
  · obtain rfl := mem_singleton.mp hr
    exact ⟨_, .refl _⟩

/-- The assembly in front of a quad is the beginning of that of the program. -/
theorem before_appends (hi : r.first ≤ i)
    (hi' : i ≤ r.last + 1) : ∃ l, (r.before i).Appends p.assembly l := by
  obtain ⟨p', hcloses⟩ := h.closes r hr
  have hopened := h.settled r hr
  obtain ⟨l, hl⟩ := hcloses.appends_before hopened hi hi' (Nat.le_refl _)
  obtain ⟨l', hl'⟩ := h.lowered_appends hr
  obtain ⟨hlines, hstrings⟩ := hcloses.before_last hopened
  exact ⟨_, hl.trans (hl'.congr hlines.symm hstrings.symm rfl rfl)⟩

/-- A quad is lowered to lines that stand in the program. -/
theorem quad_lines (hi : r.first ≤ i)
    (hq : r.closed.code.quads[i]? = some q) (hP : Lower.Adds (Lower.numbered r.site q i) P) :
    ∃ lines, P p.assembly.strings.toList () lines ∧
      r.line (i + 1) = r.line i + lines.length ∧
      Instruction.Placed p.assembly.program (r.line i) lines := by
  obtain ⟨p', hcloses⟩ := h.closes r hr
  have hrun := hcloses.numbered_run (h.settled r hr) hi hq
  have hlt := Code.lt_next_of_getElem? hq
  rw [next_closed] at hlt
  obtain ⟨l, hl⟩ := h.before_appends hr (hi.trans (Nat.le_succ i)) hlt
  obtain ⟨lines, happends, hlines⟩ := hP _ _ _ hrun
  exact ⟨lines, hlines _ hl.strings, happends.size_eq, happends.placed hl⟩

/-- A jump target is found where its quad starts. -/
theorem idxOf?_quadLabel (hi : r.first ≤ i)
    (hi' : i ≤ r.last) (htarget : r.closed.code.isTarget i) :
    p.assembly.program.idxOf? (.label (quadLabel i)) = some (r.line i) := by
  have hlt : i < r.closed.code.next := by
    rw [next_closed]
    exact Nat.lt_succ_of_le hi'
  obtain ⟨lines, ⟨l, rfl, -⟩, -, hprogram⟩ := h.quad_lines hr hi (Array.getElem?_eq_getElem hlt)
    (Lower.numbered_adds (Lower.quad_uses _) i)
  refine Instruction.idxOf?_label h.nodup_labels (hprogram 0 _ ?_)
  rw [if_pos (show r.site.code.isTarget i from htarget)]
  rfl

end Compiles

end BlockLang
