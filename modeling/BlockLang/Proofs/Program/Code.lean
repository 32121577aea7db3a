import BlockLang.Proofs.Program.Derivation

/-!
# The quads of functions

A function takes a run of quads: the first starts it, the last ends it, and its jumps
lead to quads in between. The functions of a program follow each other without a gap, and
what comes later leaves the quads and temporaries of a function alone.
-/

namespace BlockLang

open Code CompiledFunction.Closes Emit List

/-- The second code has the quads of the first, marked as they are there, and its
temporaries. -/
structure Code.Precedes (c c' : Code) : Prop where
  next_le : c.next ≤ c'.next
  below : ∀ i, i < c.next → c'.quads[i]? = c.quads[i]?
  ext : c.Extends c'
  isTarget : ∀ t, t < c.next → c'.isTarget t = c.isTarget t

namespace Code.Precedes

variable {c c1 c2 : Code}

theorem refl (c : Code) : c.Precedes c :=
  ⟨Nat.le_refl _, fun _ _ => rfl, .refl c, fun _ _ => rfl⟩

theorem trans (h : c.Precedes c1) (h' : c1.Precedes c2) : c.Precedes c2 where
  next_le := h.next_le.trans h'.next_le
  below i hi := (h'.below i (hi.trans_le h.next_le)).trans (h.below i hi)
  ext := h.ext.trans h'.ext
  isTarget t ht := (h'.isTarget t (ht.trans_le h.next_le)).trans (h.isTarget t ht)

end Code.Precedes

/-! ### The quads of a function -/

namespace CompiledFunction

variable {r : CompiledFunction} {p : Progress} {i t : Nat} {q : Quad}

/-- The code of a function without its last quad. -/
def patched (r : CompiledFunction) : Code := r.translated.code.patch r.pending r.last

theorem closed_code (r : CompiledFunction) : r.closed.code = r.patched.push (.finish r.label) :=
  rfl

namespace Closes

theorem grows (h : r.Closes p) : (r.opened.code.push (.start r.label)).Grows r.opened.env
    r.opened.code.temps.size r.patched [] :=
  ((statements_emits r.function.name r.function.result r.body (Nat.le_refl _) (.refl _ _)
    h.statements).patchHere (.of_eq r.pending.append_nil.symm)).grows

theorem next_patched (r : CompiledFunction) : r.patched.next = r.last := by
  rw [patched, next_patch, last]

theorem next_closed (r : CompiledFunction) : r.closed.code.next = r.last + 1 := by
  rw [closed_code, next_push, next_patched]

variable (h : r.Closes p)

include h

theorem first_lt_last : r.first < r.last := by
  have hle := h.grows.next_le
  rwa [next_push, next_patched] at hle

theorem quad_first : r.closed.code.quads[r.first]? = some (.start r.label) := by
  obtain ⟨-, ⟨label, hfirst, hlast⟩, -⟩ := h.grows.isFunction
  rw [getElem?_push_next] at hlast
  cases hlast
  exact hfirst

omit h in
theorem quad_last (r : CompiledFunction) :
    r.closed.code.quads[r.last]? = some (.finish r.label) := by
  rw [closed_code, ← next_patched, getElem?_push_next]

/-- A quad of a function is the first, the last, or one that stands in the body. -/
theorem quad_cases (hi : r.first ≤ i) (hq : r.closed.code.quads[i]? = some q) :
    i = r.first ∧ q = .start r.label ∨ i = r.last ∧ q = .finish r.label ∨
      r.first < i ∧ i < r.last ∧ q.op ≠ .unit ∧ q.op ≠ .endUnit := by
  have hlt := lt_next_of_getElem? hq
  rw [next_closed] at hlt
  by_cases hfirst : i = r.first
  · rw [hfirst, h.quad_first] at hq
    exact .inl ⟨hfirst, (Option.some.inj hq).symm⟩
  by_cases hlast : i = r.last
  · rw [hlast, quad_last] at hq
    exact .inr (.inl ⟨hlast, (Option.some.inj hq).symm⟩)
  · have hfunction := h.grows.isFunction.2.2 i q
    rw [next_patched] at hfunction
    exact .inr (.inr ⟨by omega, by omega, hfunction (Nat.lt_of_le_of_ne hi (Ne.symm hfirst))
      (by omega) hq⟩)

/-- The operands of a quad can play their parts, and its jump has a target. -/
theorem wellFormed (hi : r.first ≤ i) (hq : r.closed.code.quads[i]? = some q) :
    q.WellFormed r.opened.env r.closed.code r.opened.code.temps.size ∧
      q.output ≠ some .pending :=
  h.grows.function_wellFormed hi hq

/-- A jump leads to a quad of its function, which is marked. -/
theorem target (hi : r.first ≤ i) (hq : r.closed.code.quads[i]? = some q)
    (ht : q.output = some (.target t)) :
    r.first < t ∧ t ≤ r.last ∧ r.closed.code.isTarget t := by
  obtain ⟨-, rfl⟩ | ⟨-, rfl⟩ | ⟨hlt, hlt', -⟩ := h.quad_cases hi hq
  · cases ht
  · cases ht
  have hbelow : i < r.patched.next := by rwa [next_patched]
  have hjump : r.patched.JumpsTo i t := by
    refine ⟨q, ?_, (h.wellFormed hi hq).1.isBranch (.inr ⟨t, ht⟩), ht⟩
    rwa [closed_code, getElem?_push_of_lt hbelow] at hq
  have hi' : (r.opened.code.push (.start r.label)).next ≤ i := by
    rw [next_push]
    exact hlt
  obtain ⟨hlow, hhigh⟩ := h.grows.target i t hi' hjump
  rw [next_push] at hlow
  rw [next_patched] at hhigh
  exact ⟨hlow, hhigh, (h.grows.isTarget t).mpr (.inr ⟨i, hi', hjump⟩)⟩

/-- A function leaves alone what was there before. -/
theorem precedes : r.opened.code.Precedes r.closed.code where
  next_le := by
    rw [next_closed]
    exact h.first_lt_last.le.trans (Nat.le_succ _)
  below i hi := by
    have hlt : i < r.patched.next := by
      rw [next_patched]
      exact hi.trans h.first_lt_last
    rw [closed_code, getElem?_push_of_lt hlt, h.grows.below i (by rw [next_push]; omega),
      getElem?_push_of_lt hi]
  ext := ⟨h.grows.ext.temps, h.grows.ext.cell?⟩
  isTarget t ht := by
    refine Bool.eq_iff_iff.mpr ?_
    rw [closed_code, isTarget_push, h.grows.isTarget, isTarget_push, or_iff_left_iff_imp]
    rintro ⟨j, hj, hjump⟩
    have hlow := (h.grows.target j _ hj hjump).1
    rw [next_push] at hlow
    omega

theorem complete (hc : r.opened.code.Complete) : p.code.Complete :=
  h.code ▸ hc.function r.label h.grows

theorem not_isTarget_first (hc : r.opened.code.Complete) : ¬ r.closed.code.isTarget r.first := by
  rw [closed_code, isTarget_push, h.grows.isTarget, isTarget_push, hc.isTarget_iff]
  rintro (⟨i, hjump⟩ | ⟨i, hi, hjump⟩)
  · obtain ⟨first, last, ⟨-, ⟨label, -, hlast⟩, -⟩, -, -, -, hle⟩ := hc.inside i _ hjump
    exact Nat.not_lt.mpr hle (lt_next_of_getElem? hlast)
  · have hlow := (h.grows.target i _ hi hjump).1
    rw [next_push] at hlow
    exact Nat.lt_irrefl _ hlow

end Closes

end CompiledFunction

/-! ### All functions -/

/-- The functions take the quads between two moments, one after the other. -/
structure Spans (c c' : Code) (rs : List CompiledFunction) : Prop where
  precedes : c.Precedes c'
  le_first : ∀ r ∈ rs, c.next ≤ r.first
  kept : ∀ r ∈ rs, r.closed.code.Precedes c'
  ordered : rs.Pairwise fun r r' => r.last < r'.first
  covers : ∀ i, c.next ≤ i → i < c'.next → ∃ r ∈ rs, r.first ≤ i ∧ i ≤ r.last

namespace Spans

variable {c c' : Code} {rs rs' : List CompiledFunction} {r : CompiledFunction} {p : Progress}

theorem last_lt (h : Spans c c' rs) (hr : r ∈ rs) : r.last < c'.next := by
  have hle := (h.kept r hr).next_le
  rwa [next_closed] at hle

/-- A function with those inside it, in front of further functions. -/
theorem function (hcloses : r.Closes p) (inner : Spans c r.opened.code rs)
    (rest : Spans r.closed.code c' rs') : Spans c c' (rs ++ r :: rs') where
  precedes := (inner.precedes.trans hcloses.precedes).trans rest.precedes
  le_first := by
    refine forall_mem_append.mpr ⟨inner.le_first, forall_mem_cons.mpr
      ⟨inner.precedes.next_le, fun s hs => ?_⟩⟩
    exact (inner.precedes.trans hcloses.precedes).next_le.trans (rest.le_first s hs)
  kept := by
    refine forall_mem_append.mpr ⟨fun s hs => ?_, forall_mem_cons.mpr
      ⟨rest.precedes, rest.kept⟩⟩
    exact ((inner.kept s hs).trans hcloses.precedes).trans rest.precedes
  ordered := by
    have hlater : ∀ s ∈ rs', r.last < s.first := fun s hs => by
      have hle := rest.le_first s hs
      rwa [next_closed] at hle
    refine pairwise_append.mpr ⟨inner.ordered, pairwise_cons.mpr ⟨hlater, rest.ordered⟩,
      fun s hs s' hs' => ?_⟩
    have hlast : s.last < r.first := inner.last_lt hs
    rcases mem_cons.mp hs' with rfl | hs'
    · exact hlast
    · exact (hlast.trans hcloses.first_lt_last).trans (hlater s' hs')
  covers i hlow hhigh := by
    by_cases hinner : i < r.opened.code.next
    · obtain ⟨s, hs, hi⟩ := inner.covers i hlow hinner
      exact ⟨s, mem_append_left _ hs, hi⟩
    by_cases hlast : i ≤ r.last
    · exact ⟨r, by simp, Nat.le_of_not_lt hinner, hlast⟩
    · obtain ⟨s, hs, hi⟩ := rest.covers i (by rw [next_closed]; omega) hhigh
      exact ⟨s, by simp [hs], hi⟩

end Spans

theorem spans_nil (c : Code) : Spans c c [] where
  precedes := .refl c
  le_first := forall_mem_nil _
  kept := forall_mem_nil _
  ordered := .nil
  covers _ hlow hhigh := absurd hhigh (Nat.not_lt.mpr hlow)

theorem Declares.spans {path : List Nat} {k : Nat} {ds : List Decl} {p p' : Progress}
    {rs : List CompiledFunction} (h : Declares path k ds p p' rs) :
    Spans p.code p'.code rs := by
  induction h with
  | nil => exact spans_nil _
  | vars hvars _ ih => rwa [code_declareVariables hvars] at ih
  | forward _ hintroduce _ ih => rwa [code_introduce hintroduce] at ih
  | function _ hintroduce hopen _ hcloses _ ihinner ihrest =>
    rw [code_openFunction hopen, code_introduce hintroduce] at ihinner
    rw [hcloses.code] at ihrest
    exact .function hcloses ihinner ihrest

/-- The code in front of every function among local declarations is complete. -/
theorem Declares.complete {path : List Nat} {k : Nat} {ds : List Decl} {p p' : Progress}
    {rs : List CompiledFunction} (h : Declares path k ds p p' rs) (hc : p.code.Complete) :
    p'.code.Complete ∧ ∀ r ∈ rs, r.opened.code.Complete := by
  induction h with
  | nil => exact ⟨hc, forall_mem_nil _⟩
  | vars hvars _ ih => exact ih (code_declareVariables hvars ▸ hc)
  | forward _ hintroduce _ ih => exact ih (code_introduce hintroduce ▸ hc)
  | function _ hintroduce hopen _ hcloses _ ihinner ihrest =>
    rw [code_openFunction hopen, code_introduce hintroduce] at ihinner
    obtain ⟨hopened, hinner⟩ := ihinner hc
    obtain ⟨hend, hrest⟩ := ihrest (hcloses.complete hopened)
    exact ⟨hend, forall_mem_append.mpr ⟨hinner, forall_mem_cons.mpr ⟨hopened, hrest⟩⟩⟩

namespace Compiles

variable {tree : Decl} {p : Progress} {rs : List CompiledFunction}

/-- The code of a program is complete, and so is the code in front of each of its functions. -/
theorem code_complete (h : Compiles tree p rs) :
    p.code.Complete ∧ ∀ r ∈ rs, r.opened.code.Complete := by
  obtain ⟨r, p1, p2, inner, -, rfl, hinner, houter⟩ := h.outermost
  obtain ⟨hopened, hinner⟩ := hinner.complete (houter.code ▸ complete_empty)
  refine ⟨?_, forall_mem_append.mpr ⟨hinner, forall_mem_singleton.mpr hopened⟩⟩
  rw [houter.final]
  exact houter.closes.complete hopened

theorem complete (h : Compiles tree p rs) : ∀ r ∈ rs, r.opened.code.Complete :=
  h.code_complete.2

theorem spans (h : Compiles tree p rs) : Spans {} p.code rs := by
  obtain ⟨r, p1, p2, inner, -, rfl, hinner, houter⟩ := h.outermost
  have hspans := hinner.spans
  rw [houter.code] at hspans
  have hcode : p.code = r.closed.code := by rw [houter.final, houter.closes.code]
  rw [hcode]
  exact .function houter.closes hspans (spans_nil _)

end Compiles

end BlockLang
