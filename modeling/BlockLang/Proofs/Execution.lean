import BlockLang.Proofs.Linking
import BlockLang.Proofs.Processor.Meaning
import BlockLang.Proofs.Program.Layout
import BlockLang.Proofs.Program.Placement

/-!
# Executing the quads of a program

The lines of a quad stand in the program. When the processor comes to them while the frames
of the functions around can be reached, it runs through all of them. Then memory is as the
quad says, and the processor is at the quad that comes next.
-/

namespace BlockLang

open Assembly List Lower Moment

namespace Lower

variable {image : Image} {program front lines : List Instruction} {σ σ' : Processor}
  {i next : Nat} {target : Option Operand}

/-- Further lines in front make no difference. -/
theorem Continues.append (h : Continues front σ i target next lines) (l : List Instruction) :
    Continues (l ++ front) σ i target next (l ++ lines) := by
  cases h with
  | next => exact .next
  | jump ht =>
    rw [← append_assoc]
    exact .jump ht
  | branch hflags ht =>
    rw [← append_assoc]
    exact .branch hflags ht

/-- Lines that have the effect of a quad are run in the program that they stand in. -/
theorem Continues.steps {start : Nat} {line : Nat → Nat}
    (h : Continues front σ' i target next lines) (hrun : σ.runAll? image front = some σ')
    (hlines : Instruction.Placed program start lines)
    (hnext : line (i + 1) = start + lines.length)
    (htarget : ∀ t, target = some (.target t) →
      program.idxOf? (.label (quadLabel t)) = some (line t)) :
    Steps image program lines.length ⟨start, σ⟩ ⟨line next, σ'⟩ := by
  cases h with
  | next =>
    rw [hnext]
    exact steps_of_runAll? hlines hrun
  | jump ht =>
    rw [length_append]
    exact (steps_of_runAll? hlines.left hrun).snoc (.jmp hlines.right.head (htarget _ ht))
  | @branch relation f t hflags ht =>
    rw [length_append]
    refine (steps_of_runAll? hlines.left hrun).snoc ?_
    have hbranch : Step image program _ _ :=
      .jcc hlines.right.head hflags (htarget t ht)
    have hline : line (if f.holds relation then t else i + 1) =
        if f.holds relation then line t else start + front.length + 1 := by
      rw [apply_ite line, hnext, length_append]
      rfl
    rwa [hline]

/-- A label in front of a quad has no effect of its own. -/
theorem Performs.labelled {base : Nat → Word} {depth n : Nat} {l : Layout} {literals : List String}
    {q : Quad} (h : Performs image base depth l literals q i lines) (isTarget : Bool) :
    Performs image base depth l literals q i
      ((if isTarget then [.label (quadLabel n)] else []) ++ lines) := by
  intro σ o hσ ho
  obtain ⟨front, σ', hrun, hperformed, hcontinues⟩ := h σ o hσ ho
  have hlabel : σ.runAll? image
      (if isTarget then [.label (quadLabel n)] else []) = some σ := by split <;> rfl
  exact ⟨_, σ', Processor.runAll?_append hlabel hrun, hperformed, hcontinues.append _⟩

end Lower

namespace Compiles

variable {tree : Decl} {p : Progress} {rs : List CompiledFunction} {r : CompiledFunction} {i : Nat}
  {q : Quad}

/-- A quad has an effect unless it traps. -/
theorem exists_effect (h : Compiles tree p rs) (hr : r ∈ rs) (hi : r.first ≤ i)
    (hq : r.closed.code.quads[i]? = some q) (hop : q.op.IsInner) (image : Image) (base : Nat → Word)
    (s : Store) (htraps : ¬ r.site.layout.Traps base s q) :
    ∃ o, r.site.layout.effect? base s image p.assembly.strings.toList q i = some o := by
  obtain ⟨p', hcloses⟩ := h.closes r hr
  obtain ⟨hwf, hpending⟩ := hcloses.wellFormed hi hq
  have hliteral : q.op = .array → ∀ t, q.first = some (.string t) →
      (p.assembly.strings.toList.idxOf? t).isSome := by
    obtain ⟨op, first, second, output⟩ := q
    rintro rfl t ht
    obtain ⟨x, y, n, rfl, -, rfl, -, rfl, -⟩ := hwf
    obtain ⟨_, ⟨_, -, hx⟩, -⟩ :=
      h.quad_lines hr hi hq (numbered_adds (array_literal x y n) i)
    exact hx t (Option.some.inj ht)
  have hsome := (hcloses.site_sound (h.settled r hr)).effect?_isSome base s hop hwf hpending image
    hliteral i
  exact Option.isSome_iff_exists.mp (hsome.resolve_right htraps)

theorem executes (h : Compiles tree p rs) (htext : tree.InText) (hr : r ∈ rs) (hi : r.first ≤ i)
    (hq : r.closed.code.quads[i]? = some q) (hop : q.op.IsInner) (image : Image) {base : Nat → Word}
    {σ : Processor} (hσ : σ.Running base r.path.length)
    (htraps : ¬ (r.layout rs).Traps base σ.store q) :
    ∃ o σ', (r.layout rs).effect? base σ.store image p.assembly.strings.toList q i = some o ∧
      Steps image p.assembly.program (r.line (i + 1) - r.line i) ⟨r.line i, σ⟩
        ⟨r.line o.next, σ'⟩ ∧ σ.Performed o σ' := by
  obtain ⟨p', hcloses⟩ := h.closes r hr
  obtain ⟨hwf, hpending⟩ := hcloses.wellFormed hi hq
  have hagrees := h.layout_agrees htext hr
  obtain ⟨o, ho⟩ := h.exists_effect hr hi hq hop image base σ.store (by
    rwa [Layout.Traps, hagrees.value?_eq] at htraps)
  obtain ⟨lines, ⟨l, hl, hperforms⟩, hsize, hplaced⟩ := h.quad_lines hr hi hq
    (numbered_adds (quad_performs image base (h.reaching hr) hop hwf hpending i) i)
  obtain ⟨front, σ', hrun, hperformed, hcontinues⟩ := hperforms.labelled _ σ o hσ ho
  rw [← hl] at hcontinues
  refine ⟨o, σ', by rw [hagrees.effect?_eq, ho], ?_, hperformed⟩
  rw [hsize, Nat.add_sub_cancel_left]
  refine hcontinues.steps hrun hplaced hsize fun t ht => ?_
  obtain ⟨hfirst, hlast, htarget⟩ := hcloses.target hi hq ht
  exact h.idxOf?_quadLabel hr hfirst.le hlast htarget

/-- A quad of a program belongs to one of its functions. -/
theorem exists_function (h : Compiles tree p rs) (hq : p.code.quads[i]? = some q) :
    ∃ r ∈ rs, r.first ≤ i ∧ i ≤ r.last ∧ r.closed.code.quads[i]? = some q := by
  obtain ⟨r, hr, hfirst, hlast⟩ := h.spans.covers i (Nat.zero_le i) (Code.lt_next_of_getElem? hq)
  refine ⟨r, hr, hfirst, hlast, ?_⟩
  have hlt : i < r.closed.code.next := by
    rw [CompiledFunction.Closes.next_closed]
    exact Nat.lt_succ_of_le hlast
  rw [← (h.spans.kept r hr).below i hlt, hq]

end Compiles

/-! ### Texts -/

/-- The quads of a text that compiles are executed: when the processor comes to the lines of
a quad in a frame of its function, and the links lead to the frames of the functions around,
it runs through these lines. Then memory is as the effect of the quad says, the processor is
at the quad that comes next, and the frame and the stack are where they were. -/
theorem executes_of_compile {source : String} {c : Compilation} (h : (compile source).1 = .ok c) :
    ∃ lexemes tree p rs, Token.scan source = .ok lexemes ∧ (Decl.read lexemes).1 = .ok tree ∧
      Emit.program (some tree) {} = .ok () p ∧ c = p.compilation tree ∧ Compiles tree p rs ∧
      ∀ (i : Nat) (q : Quad), p.code.quads[i]? = some q → q.op.IsInner →
        ∃ r ∈ rs, r.first ≤ i ∧ i ≤ r.last ∧
          ∀ (image : Image) (base : Nat → Word) (σ : Processor), σ.Running base r.path.length →
            ¬ (r.layout rs).Traps base σ.store q →
            ∃ o σ', (r.layout rs).effect? base σ.store image p.assembly.strings.toList q i =
                some o ∧
              Moment.Steps image p.assembly.program (r.line (i + 1) - r.line i) ⟨r.line i, σ⟩
                ⟨r.line o.next, σ'⟩ ∧ σ.Performed o σ' := by
  obtain ⟨lexemes, tree, p, hscan, hread, hrun, hc⟩ := emitted_of_compile h
  obtain ⟨rs, hcompiles⟩ := Emit.program_compiles hrun
  refine ⟨lexemes, tree, p, rs, hscan, hread, hrun, hc, hcompiles, fun i q hq hop => ?_⟩
  obtain ⟨r, hr, hfirst, hlast, hq⟩ := hcompiles.exists_function hq
  refine ⟨r, hr, hfirst, hlast, fun image base σ hσ htraps => ?_⟩
  exact hcompiles.executes (Decl.inText_of_read hscan hread) hr hfirst hq hop image hσ htraps

/-- A program in which a function adds to a variable of the function around it. -/
def counting : String :=
  "function main() : nothing;
var total : int;
function count(step : int) : nothing;
begin total := total + step; end
begin count(1); end"

/-- A processor with empty registers and an empty memory. -/
def Processor.blank : Processor := ⟨fun _ => 0, none, fun _ => 0⟩

/-- A processor in a frame of the inner function, with a link to one of the outer function. The
argument and the variable are in memory. -/
def Processor.inCount : Processor :=
  (blank.set .ebp 1000).withStore
    (((blank.store.write .int 1008 2000).write .int 1012 3).write .int 1996 5)

def countFrames (k : Nat) : Word := if k = 0 then 1000 else 2000

/-- An image without literals and routines. -/
def Image.blank : Image := ⟨fun _ => 0, fun n => .ofNat (4096 + n), 0, fun _ _ _ => False⟩

theorem executes_of_compile_counting : ∃ c, (compile counting).1 = .ok c ∧
    ∃ tree p rs, Compiles tree p rs ∧ p.code.quads[1]? =
        some ⟨.arith .add, some (.name "total"), some (.name "step"), some (.temp 0)⟩ ∧
      ∃ r ∈ rs, ∃ o σ', (r.layout rs).effect? countFrames Processor.inCount.store .blank
          p.assembly.strings.toList
          ⟨.arith .add, some (.name "total"), some (.name "step"), some (.temp 0)⟩ 1 = some o ∧
        Moment.Steps .blank p.assembly.program (r.line 2 - r.line 1) ⟨r.line 1, .inCount⟩
          ⟨r.line o.next, σ'⟩ ∧ Processor.inCount.Performed o σ' := by
  have hknown : (treeOf? counting).any (fun tree => (progress? tree).any fun p =>
      p.code.quads[1]? =
        some ⟨.arith .add, some (.name "total"), some (.name "step"), some (.temp 0)⟩ ∧
      ∀ d ∈ tree.definitions [] [], d.path.length ≤ 1) = true := by
    decide +kernel
  obtain ⟨c, hc⟩ := exists_compilation hknown
  obtain ⟨lexemes, tree, p, rs, hscan, hread, hrun, -, hcompiles, hexecutes⟩ :=
    executes_of_compile hc
  simp only [treeOf?_eq hscan hread, progress?_eq hrun, Option.any_some, decide_eq_true_eq]
    at hknown
  obtain ⟨hquad, hdepth⟩ := hknown
  obtain ⟨r, hr, -, -, hr'⟩ := hexecutes 1 _ hquad trivial
  have hrunning : Processor.inCount.Running countFrames r.path.length := by
    obtain ⟨d, hd, hrealizes⟩ :=
      hcompiles.exists_definition (Decl.inText_of_read hscan hread) hr
    have hle := hdepth d hd
    rw [hrealizes.path] at hle
    refine ⟨rfl, fun k hk => ?_⟩
    obtain rfl : k = 0 := by omega
    decide
  have htraps : ¬ (r.layout rs).Traps countFrames Processor.inCount.store
      ⟨.arith .add, some (.name "total"), some (.name "step"), some (.temp 0)⟩ := by
    rintro ⟨operator, x, y, a, b, hop, -, -, -, -, hnone⟩
    cases hop
    cases hnone
  obtain ⟨o, σ', heffect, hsteps, hperformed⟩ := hr' .blank _ _ hrunning htraps
  exact ⟨c, hc, tree, p, rs, hcompiles, hquad, r, hr, o, σ', heffect, hsteps, hperformed⟩

end BlockLang
