import BlockLang.Proofs.Execution
import BlockLang.Proofs.Program.Passing
import BlockLang.Proofs.Segmentation

/-!
# The protocol of calls

The arguments of a call are computed first, and calls among them come to their end there. Then the
quads of the call stand one after the other, so arguments of different calls are never mixed up,
and lowering collects them from the first up to the call.
-/

namespace BlockLang

open Emit List

/-- The quads from `first` on prepare a call of a visible function and end with it. There is an
argument for each parameter, which is passed as the parameter asks, and then a temporary for the
result, if there is one. -/
structure CompiledFunction.Prepares (p : Progress) (r : CompiledFunction) (first : Nat)
    (g : FunctionDecl) (scope : Int) (es : List Expr) (as : List Argument)
    (result : Option Nat) : Prop extends r.CallsFrom first g scope as result where
  first_lt : r.first < first
  last_lt : first + (as.length + result.toList.length) < r.last
  quads : p.code.Stands first (callQuads as result (calleeLabel g scope))
  /-- No argument stands in front of the first one. -/
  apart : ∀ q, p.code.quads[first - 1]? = some q → q.op ≠ .par
  /-- The arguments are what the expressions were computed to, right before. -/
  computed : ∃ p0 p1, p0.env = r.opened.env ∧ es.length = g.parameters.length ∧
    argumentsOf g g.parameters es p0 = .ok as p1 ∧ p1.code.next = first ∧
    p1.code.Continues r.closed.code
  /-- What is passed by reference is a variable or a parameter, the address of a cell or row, or
  a literal. -/
  references : ∀ x ∈ as, x.byReference →
    x.value.Located r.opened.env p.code r.opened.code.temps.size
  /-- The result goes to a temporary of its type that no quad in front names. -/
  fresh : ∀ n, result = some n → p.code.temps[n]? = some g.result ∧
    ∀ i q, i < first + as.length → p.code.quads[i]? = some q → n ∉ q.temps
  /-- Nothing is remembered in front of the call. -/
  before : (r.before first).Idle
  remembered : (r.before (first + (as.length + result.toList.length))).arguments = as ∧
    (r.before (first + (as.length + result.toList.length))).destination =
      result.map .temp
  /-- Nothing is remembered after the call. -/
  after : (r.before (first + (as.length + result.toList.length) + 1)).Idle

/-! ### Temporaries of other functions -/

namespace Tiles

variable {c c' : Code} {rs : List CompiledFunction} {r : CompiledFunction}

theorem precedes (h : Tiles c c' rs) : c.Precedes c' := by
  induction h with
  | nil => exact .refl _
  | cons hcloses _ ih => exact hcloses.precedes.trans ih

/-- The functions in front of a moment have their code then. -/
theorem closed_precedes (h : Tiles c c' rs) (hr : r ∈ rs) : r.closed.code.Precedes c' := by
  induction h with
  | nil => cases hr
  | cons _ rest ih =>
    rcases mem_cons.mp hr with rfl | hr
    · exact rest.precedes
    · exact ih hr

end Tiles

namespace Compiles

variable {tree : Decl} {p : Progress} {rs : List CompiledFunction} {r : CompiledFunction}
  {i n : Nat} {q : Quad}

variable (h : Compiles tree p rs) (hr : r ∈ rs)

include h hr

/-- The quads in front of a function name none of its temporaries. -/
theorem unnamed (hi : i < r.first) (hq : p.code.quads[i]? = some q)
    (hn : r.opened.code.temps.size ≤ n) : n ∉ q.temps := by
  intro hmem
  obtain ⟨r', hr', hfirst, hlast, -⟩ := h.exists_function hq
  obtain ⟨-, hlt⟩ := (h.keeps hr').named i q n hfirst hlast hq hmem
  -- the quad belongs to a function that was completed before
  obtain ⟨front, rest, rfl⟩ := append_of_mem hr
  have hfront : r' ∈ front := by
    have hordered := pairwise_append.mp h.spans.ordered
    rcases mem_append.mp hr' with hfront | hrest
    · exact hfront
    · rcases mem_cons.mp hrest with rfl | hrest
      · omega
      · have hlater := (pairwise_cons.mp hordered.2.1).1 r' hrest
        obtain ⟨_, hcloses⟩ := h.closes r hr
        have := hcloses.first_lt_last
        omega
  have hle := (h.tiles.front.closed_precedes hfront).ext.size_le
  omega

/-- The quads of a function are those of the program. -/
theorem quads_eq (hi : i ≤ r.last) : p.code.quads[i]? = r.closed.code.quads[i]? := by
  refine (h.spans.kept r hr).below i ?_
  rw [CompiledFunction.Closes.next_closed]
  exact Nat.lt_succ_of_le hi

section Calls

variable {first : Nat} {g : FunctionDecl} {scope : Int} {as : List Argument}

/-- A quad that names the temporary of a result comes after those of the arguments. -/
theorem le_of_mem_temps (hcalls : r.CallsFrom first g scope as (some n)) (hfirst : r.first ≤ first)
    (hlast : first + as.length < r.last) (hq : p.code.quads[i]? = some q) (hmem : n ∈ q.temps) :
    first + as.length ≤ i := by
  have hkeeps := h.keeps hr
  have hdestination : p.code.quads[first + as.length]? = some (destinationQuad n) := by
    rw [h.quads_eq hr hlast.le]
    exact hcalls.stands _ _ (by simp [callQuads])
  obtain ⟨hlow, hhigh⟩ := hkeeps.named _ _ n (by omega) hlast.le hdestination (by
    simp [destinationQuad, Quad.temps, Operand.temps])
  by_contra hlt
  by_cases hi : i < r.first
  · exact h.unnamed hr hi hq hlow hmem
  -- the call writes the temporary, and no other quad does
  have hwrites := hkeeps.result _ _ n (by omega) hlast.le hdestination rfl
  obtain ⟨w, -, -, honce⟩ := hkeeps.written n hlow hhigh
  obtain rfl := (honce _ (by omega) hlast).mp hwrites
  have hi' : i ≤ r.last := by omega
  obtain hread | hcomputed | hresult := Quad.mem_temps hmem
  · obtain ⟨hbehind, -⟩ := hkeeps.used _ i q n (by omega) hlast hwrites (by omega) hi' hq hread
    omega
  · obtain ⟨_, hcloses⟩ := h.closes r hr
    have hop := hcloses.op_ne_call_of_computes? (by omega) (h.quads_eq hr hi' ▸ hq) hcomputed
    have hsame := (honce i (by omega) hi').mp (by rw [Code.writes?_of_getElem? hq hop, hcomputed])
    omega
  · have hsame := (honce (i + 1) (by omega) (by omega)).mp
      (hkeeps.result i q n (by omega) hi' hq hresult)
    omega

/-- Every call of a function is prepared by the quads in front of it. -/
theorem prepares (htext : tree.InText) (htyped : tree.IsTyped) (hi : r.first ≤ i)
    (hq : r.closed.code.quads[i]? = some q)
    (hop : q.op = .call) : ∃ first g scope es as destination,
      r.Prepares p first g scope es as destination ∧
      i = first + (as.length + destination.toList.length) := by
  obtain ⟨_, hcloses⟩ := h.closes r hr
  have hopened := h.settled r hr
  have hwellTyped := h.wellTyped htext htyped hr
  obtain ⟨first, g, scope, as, destination, hcalls, rfl, hcall⟩ :=
    h.exists_callOf htext htyped hr hi hq hop
  have hfirst := hcalls.first_lt hcloses hi
  have hlast : first + (as.length + destination.toList.length) < r.last := by
    obtain ⟨-, rfl⟩ | ⟨-, rfl⟩ | ⟨-, hlt, -⟩ := hcloses.quad_cases hi hq
    · cases hop
    · cases hop
    · exact hlt
  have hidle := hcalls.idle hcloses hopened hwellTyped hfirst (by omega)
  obtain ⟨hargs, hdest⟩ := hcalls.remembered hcloses hopened hwellTyped hfirst (by omega)
  obtain ⟨es, p0, p1, hcomputed⟩ := hcall.computed
  refine ⟨first, g, scope, es, as, destination, {
    toCallsFrom := hcalls
    first_lt := hfirst
    last_lt := hlast
    quads := fun k q' hq' => ?_
    apart := fun q' hq' hpar => ?_
    computed := ⟨p0, p1, hcomputed⟩
    references := fun x hx href => ?_
    fresh := fun n hn => ?_
    before := hidle
    remembered := ⟨hargs, hdest⟩
    after := ?_ }, rfl⟩
  · have hk := (List.getElem?_eq_some_iff.mp hq').1
    rw [length_callQuads] at hk
    rw [h.quads_eq hr (by omega)]
    exact hcalls.stands k q' hq'
  · -- an argument right in front would belong to the same call
    rw [h.quads_eq hr (by omega)] at hq'
    obtain ⟨first', g', scope', as', destination', hcalls', hle, hge⟩ :=
      exists_callsFrom hwellTyped (by omega) hq' (.inl hpar)
    have hne : first - 1 ≠ first' + (as'.length + destination'.toList.length) := by
      intro heq
      have hop' := hcalls'.op hle hge hq'
      rw [if_pos heq, hpar] at hop'
      cases hop'
    have := hcalls.first_eq hcalls' (by omega) (by omega)
    omega
  · have hprepared := (hcloses.prepared hopened hi (by omega)).1.arguments x (by rwa [hargs])
    rw [if_pos href] at hprepared
    exact hprepared.mono (h.spans.kept r hr).ext
  · subst hn
    obtain ⟨hnone, -⟩ | ⟨n', hn', -, hty⟩ := hcall.destination
    · cases hnone
    cases hn'
    refine ⟨(h.spans.kept r hr).ext.temps n _ hty, fun i q' hi' hq' hmem => ?_⟩
    have hle := h.le_of_mem_temps hr hcalls hfirst.le ((Nat.lt_succ_self _).trans hlast) hq' hmem
    omega
  · refine (hcloses.prepared hopened (by omega) (by omega)).2.resolve_right ?_
    rintro ⟨k, q', heq, -, hq', hpar⟩
    obtain rfl : first + (as.length + destination.toList.length) = k := by omega
    cases hq.symm.trans hq'
    rw [hop] at hpar
    cases hpar

end Calls

end Compiles

/-! ### Quads that calls have in common -/

theorem Emit.argumentQuad_injective : Function.Injective argumentQuad := by
  rintro ⟨value, byReference⟩ ⟨value', byReference'⟩ h
  cases byReference <;> cases byReference' <;> cases h <;> rfl

theorem Emit.destinationQuad_injective : Function.Injective destinationQuad := by
  intro n n' h
  cases h
  rfl

/-- Calls of a function from the same quad on have the same arguments. -/
theorem CompiledFunction.CallsFrom.operands_eq {r : CompiledFunction} {first : Nat}
    {g : FunctionDecl} {scope : Int} {as as' : List Argument}
    {destination destination' : Option Nat}
    (h : r.CallsFrom first g scope as destination)
    (h' : r.CallsFrom first g scope as' destination') :
    as = as' ∧ destination = destination' := by
  have hquads : callQuads as destination (calleeLabel g scope) =
      callQuads as' destination' (calleeLabel g scope) := by
    refine ext_getElem ?_ fun k hk hk' => ?_
    · rw [length_callQuads, length_callQuads, h.length_eq h']
    · have hquad := h.stands k _ (getElem?_eq_getElem hk)
      rw [h'.stands k _ (getElem?_eq_getElem hk')] at hquad
      exact (Option.some.inj hquad).symm
  have hlength : as.length = as'.length := h.arguments.length_eq.trans h'.arguments.length_eq.symm
  rw [callQuads, callQuads, append_assoc, append_assoc] at hquads
  obtain ⟨has, hrest⟩ := append_inj hquads (by simpa using hlength)
  have hresult := destinationQuad_injective.list_map (append_cancel_right hrest)
  exact ⟨argumentQuad_injective.list_map has, by simpa using congrArg List.head? hresult⟩

/-- A quad belongs to one function. -/
theorem Compiles.eq_of_quad {tree : Decl} {p : Progress} {rs : List CompiledFunction}
    {r r' : CompiledFunction} (h : Compiles tree p rs) (hr : r ∈ rs) (hr' : r' ∈ rs) {i : Nat}
    (hfirst : r.first ≤ i) (hlast : i ≤ r.last) (hfirst' : r'.first ≤ i) (hlast' : i ≤ r'.last) :
    r = r' := by
  obtain ⟨k, hk, rfl⟩ := getElem_of_mem hr
  obtain ⟨k', hk', rfl⟩ := getElem_of_mem hr'
  have hordered := pairwise_iff_getElem.mp h.spans.ordered
  rcases Nat.lt_trichotomy k k' with hlt | rfl | hlt
  · have := hordered k k' hk hk' hlt
    omega
  · rfl
  · have := hordered k' k hk' hk hlt
    omega

namespace CompiledFunction.Prepares

variable {tree : Decl} {p : Progress} {rs : List CompiledFunction} {r r' : CompiledFunction}
  {i first first' : Nat} {g g' : FunctionDecl} {scope scope' : Int} {es es' : List Expr}
  {as as' : List Argument} {destination destination' : Option Nat}

/-- A quad is part of one call at most. -/
theorem unique (h : r.Prepares p first g scope es as destination)
    (h' : r'.Prepares p first' g' scope' es' as' destination') (hcompiles : Compiles tree p rs)
    (hr : r ∈ rs) (hr' : r' ∈ rs) (hfirst : first ≤ i)
    (hlast : i ≤ first + (as.length + destination.toList.length)) (hfirst' : first' ≤ i)
    (hlast' : i ≤ first' + (as'.length + destination'.toList.length)) :
    r = r' ∧ first = first' ∧ g = g' ∧ scope = scope' ∧ as = as' ∧ destination = destination' := by
  have hlow := h.first_lt
  have hhigh := h.last_lt
  have hlow' := h'.first_lt
  have hhigh' := h'.last_lt
  obtain rfl := hcompiles.eq_of_quad hr hr' (by omega) (by omega) (by omega : r'.first ≤ i)
    (by omega)
  obtain ⟨hstart, hend⟩ : first = first' ∧ first + (as.length + destination.toList.length) =
      first' + (as'.length + destination'.toList.length) := by
    rcases Nat.le_total first' first with hle | hle
    · exact ⟨(h.first_eq h'.toCallsFrom hle (by omega)).symm,
        h.last_eq h'.toCallsFrom hle (by omega)⟩
    · exact ⟨h'.first_eq h.toCallsFrom hle (by omega),
        (h'.last_eq h.toCallsFrom hle (by omega)).symm⟩
  subst hstart
  obtain ⟨rfl, rfl⟩ := h.callee_eq h'.toCallsFrom hend
  exact ⟨rfl, rfl, rfl, rfl, h.operands_eq h'.toCallsFrom⟩

end CompiledFunction.Prepares

/-- The protocol of calls. In a text that compiles, every call ends the quads that prepare it,
every argument is part of such quads, and no two calls share a quad. -/
theorem call_protocol {source : String} {c : Compilation} (h : (compile source).1 = .ok c) :
    ∃ lexemes tree p rs, Token.scan source = .ok lexemes ∧ (Decl.read lexemes).1 = .ok tree ∧
      Emit.program (some tree) {} = .ok () p ∧ c = p.compilation tree ∧ Compiles tree p rs ∧
      (∀ i q, p.code.quads[i]? = some q → q.op = .call →
        ∃ r ∈ rs, ∃ first g scope es as destination,
          r.Prepares p first g scope es as destination ∧
          i = first + (as.length + destination.toList.length)) ∧
      (∀ i q, p.code.quads[i]? = some q → q.op = .par →
        ∃ r ∈ rs, ∃ first g scope es as destination,
          r.Prepares p first g scope es as destination ∧ first ≤ i ∧
          i < first + (as.length + destination.toList.length)) ∧
      ∀ r ∈ rs, ∀ r' ∈ rs, ∀ i first first' g g' scope scope' es es' as as' destination
        destination', r.Prepares p first g scope es as destination →
        r'.Prepares p first' g' scope' es' as' destination' →
        first ≤ i → i ≤ first + (as.length + destination.toList.length) →
        first' ≤ i → i ≤ first' + (as'.length + destination'.toList.length) →
          r = r' ∧ first = first' ∧ g = g' ∧ scope = scope' ∧ as = as' ∧
            destination = destination' := by
  obtain ⟨lexemes, tree, p, hscan, hread, hrun, hc⟩ := emitted_of_compile h
  obtain ⟨rs, hcompiles⟩ := Emit.program_compiles hrun
  have htext := Decl.inText_of_read hscan hread
  have htyped := Decl.isTyped_of_read hread
  refine ⟨lexemes, tree, p, rs, hscan, hread, hrun, hc, hcompiles, ?_, ?_, ?_⟩
  · intro i q hq hop
    obtain ⟨r, hr, hfirst, -, hq⟩ := hcompiles.exists_function hq
    exact ⟨r, hr, hcompiles.prepares hr htext htyped hfirst hq hop⟩
  · intro i q hq hop
    obtain ⟨r, hr, hfirst, -, hq⟩ := hcompiles.exists_function hq
    obtain ⟨first, g, scope, as, destination, hcalls, hle, hge⟩ :=
      Compiles.exists_callsFrom (hcompiles.wellTyped htext htyped hr) hfirst hq (.inl hop)
    have hne : i ≠ first + (as.length + destination.toList.length) := by
      intro heq
      have hcall := hcalls.op hle hge hq
      rw [if_pos heq, hop] at hcall
      cases hcall
    obtain ⟨first', g', scope', es, as', destination', hprepares, hend⟩ :=
      hcompiles.prepares hr htext htyped (hfirst.trans hge) hcalls.quad_call rfl
    obtain ⟨rfl, rfl⟩ := hcalls.callee_eq hprepares.toCallsFrom hend
    have hlength := hcalls.length_eq hprepares.toCallsFrom
    exact ⟨r, hr, first', g, scope, es, as', destination', hprepares, by omega, by omega⟩
  · intro r hr r' hr' i first first' g g' scope scope' es es' as as' destination destination' h h'
    exact h.unique h' hcompiles hr hr'

/-- A program with calls in the arguments of calls and in subscripts. -/
def callsWithinCalls : String :=
  "function main(): nothing;
var a: int[3][2];
function pick(n: int; ref row: int[]): int;
begin return row[n]; end
begin a[pick(1, a[pick(0, a[2])])][1] := pick(pick(1, a[0]), a[1]); puts(\"done\"); end"

theorem call_protocol_callsWithinCalls : ∃ c, (compile callsWithinCalls).1 = .ok c ∧
    ∃ tree p rs, Compiles tree p rs ∧ c = p.compilation tree ∧
      p.code.quads[9]? = some (Emit.argumentQuad ⟨.cell 2, true⟩) ∧
      p.code.quads[17]? = some (Emit.callQuadOf ⟨"pick", some 1, 0⟩) ∧
      (∃ r ∈ rs, ∃ first g scope es as destination,
        r.Prepares p first g scope es as destination ∧ first ≤ 9 ∧
        9 < first + (as.length + destination.toList.length)) ∧
      ∃ r ∈ rs, ∃ first g scope es as destination,
        r.Prepares p first g scope es as destination ∧
        17 = first + (as.length + destination.toList.length) := by
  have hknown : (treeOf? callsWithinCalls).any (fun tree => (progress? tree).any fun p =>
      p.code.quads[9]? = some (Emit.argumentQuad ⟨.cell 2, true⟩) ∧
        p.code.quads[17]? = some (Emit.callQuadOf ⟨"pick", some 1, 0⟩)) = true := by
    decide +kernel
  obtain ⟨c, hc⟩ := exists_compilation hknown
  obtain ⟨lexemes, tree, p, rs, hscan, hread, hrun, heq, hcompiles, hcalls, harguments, -⟩ :=
    call_protocol hc
  simp only [treeOf?_eq hscan hread, progress?_eq hrun, Option.any_some, decide_eq_true_eq]
    at hknown
  obtain ⟨hargument, hcall⟩ := hknown
  exact ⟨c, hc, tree, p, rs, hcompiles, heq, hargument, hcall, harguments 9 _ hargument rfl,
    hcalls 17 _ hcall rfl⟩

end BlockLang
