import BlockLang.Proofs.Processor.Call
import BlockLang.Proofs.Program.Header
import BlockLang.Proofs.Typing

/-!
# The calls of a program

The quads of a call stand one after the other: one for each argument, one for the result,
if there is one, and the call itself. When the call is lowered, these arguments are
remembered and nothing else is.
-/

namespace BlockLang

open Emit List Lower

/-- The quads of a call, the last of which is the call itself. -/
def Emit.callQuads (as : List Argument) (destination : Option Nat) (label : FunctionLabel) :
    List Quad :=
  as.map argumentQuad ++ destination.toList.map destinationQuad ++ [callQuadOf label]

theorem Emit.length_callQuads (as : List Argument) (destination : Option Nat)
    (label : FunctionLabel) : (callQuads as destination label).length =
      as.length + destination.toList.length + 1 := by
  simp [callQuads, Nat.add_assoc]

namespace CompiledFunction

/-- From a quad on stands the call of a visible function, with the arguments and the
destination that the function asks for. -/
structure CallsFrom (r : CompiledFunction) (first : Nat) (g : FunctionDecl) (scope : Int)
    (as : List Argument) (destination : Option Nat) : Prop where
  visible : r.opened.env.find? g.name = some ⟨.fn g, scope⟩
  stands : r.closed.code.Stands first
    (callQuads as destination (calleeLabel g scope))
  arguments : List.Forall₂ (Argument.Fits r.site.Types) as g.parameters
  destination : destination = none ∧ g.result = .nothing ∨
    ∃ n, destination = some n ∧ g.result ≠ .nothing ∧ r.site.Types (.temp n) g.result

variable {r : CompiledFunction} {p : Progress} {i : Nat} {g : FunctionDecl} {scope : Int}
  {as : List Argument} {destination : Option Nat}

namespace Closes

/-- What is remembered in front of a quad can be used. Something is remembered only after
the quad of an argument. -/
theorem prepared (h : r.Closes p) (hopened : r.opened.Settled) (hi : r.first ≤ i)
    (hi' : i ≤ r.last + 1) : (r.before i).Prepared r.site r.opened.code.temps.size ∧
      ((r.before i).Idle ∨ ∃ k q, i = k + 1 ∧ r.first ≤ k ∧ r.closed.code.quads[k]? = some q ∧
        q.op = .par) := by
  induction i, hi using Nat.le_induction with
  | base =>
    rw [before_first]
    exact ⟨hopened.idle.prepared _ _, .inl hopened.idle⟩
  | succ i hi ih =>
    obtain ⟨hprepared, hidle⟩ := ih (by omega)
    have hlt : i < r.closed.code.next := by
      rw [next_closed]
      omega
    have hq : r.closed.code.quads[i]? = some _ := Array.getElem?_eq_getElem hlt
    obtain ⟨hwf, hpending⟩ := h.wellFormed hi hq
    obtain ⟨u, a, hrun, hprepared', hcases⟩ :=
      Lower.numbered_run (h.site_sound hopened) hprepared hwf hpending i
    cases hrun.symm.trans (h.numbered_run hopened hi hq)
    refine ⟨hprepared', ?_⟩
    by_cases hpar : r.closed.code.quads[i].op = .par
    · exact .inr ⟨i, _, rfl, hi, hq, hpar⟩
    obtain hidle' | ⟨hcall, harguments, hdestination⟩ := hcases.resolve_left hpar
    · exact .inl hidle'
    · -- after an argument there would be another one or the call
      obtain hidle | ⟨k, q, rfl, hk, hq', hpar'⟩ := hidle
      · exact .inl ⟨harguments.trans hidle.1, hdestination.trans hidle.2⟩
      · obtain ⟨q', hnext, hop⟩ := h.grows.function_calls hk hq' hpar'
        cases hnext.symm.trans hq
        exact absurd hop (not_or.mpr ⟨hpar, hcall⟩)

end Closes

/-! ### The quads of a call -/

/-- The quads in front of a call are those of arguments and of the destination. -/
theorem op_callQuads {label : FunctionLabel} {k : Nat} {q : Quad}
    (hq : (callQuads as destination label)[k]? = some q) :
    q.op = (if k = as.length + destination.toList.length then .call else .par) := by
  unfold callQuads at hq
  have hlength : (as.map argumentQuad ++ destination.toList.map destinationQuad).length =
      as.length + destination.toList.length := by simp
  rw [getElem?_append, hlength] at hq
  split at hq
  · rename_i hlt
    rw [if_neg (by omega)]
    have hmem := mem_of_getElem? hq
    simp only [mem_append, mem_map] at hmem
    obtain ⟨a, -, rfl⟩ | ⟨n, -, rfl⟩ := hmem <;> rfl
  · rename_i hge
    obtain hk | hk : k - (as.length + destination.toList.length) = 0 ∨
        0 < k - (as.length + destination.toList.length) := by omega
    · rw [hk] at hq
      cases hq
      rw [if_pos (by omega)]
      rfl
    · rw [getElem?_eq_none (by rw [length_singleton]; omega)] at hq
      cases hq

namespace CallsFrom

variable {first first' : Nat} {g' : FunctionDecl} {scope' : Int} {as' : List Argument}
  {destination' : Option Nat} {q : Quad}

variable (h : r.CallsFrom first g scope as destination)

include h

/-- The quads of a call are those of its arguments and its destination, and the call. -/
theorem op (hfirst : first ≤ i)
    (hi : i ≤ first + (as.length + destination.toList.length))
    (hq : r.closed.code.quads[i]? = some q) :
    q.op = if i = first + (as.length + destination.toList.length) then .call else .par := by
  have hlt : i - first < (callQuads as destination (calleeLabel g scope)).length := by
    rw [length_callQuads]
    omega
  have hquad := h.stands (i - first) _ (getElem?_eq_getElem hlt)
  rw [Nat.add_sub_cancel' hfirst, hq] at hquad
  rw [Option.some.inj hquad, op_callQuads (getElem?_eq_getElem hlt)]
  exact if_congr (by omega) rfl rfl

/-- The call itself comes last. -/
theorem quad_call :
    r.closed.code.quads[first + (as.length + destination.toList.length)]? =
      some (callQuadOf (calleeLabel g scope)) := by
  refine h.stands _ _ ?_
  have hlength : (as.map argumentQuad ++ destination.toList.map destinationQuad).length =
      as.length + destination.toList.length := by simp
  rw [callQuads, getElem?_append_right hlength.le, hlength, Nat.sub_self]
  rfl

theorem length_eq (h' : r.CallsFrom first' g scope as' destination') :
    as.length + destination.toList.length = as'.length + destination'.toList.length := by
  have hlength := h.arguments.length_eq.trans h'.arguments.length_eq.symm
  obtain ⟨rfl, hresult⟩ | ⟨n, rfl, hresult, -⟩ := h.destination
  · obtain ⟨rfl, -⟩ | ⟨n, rfl, hresult', -⟩ := h'.destination
    · rw [hlength]
    · exact absurd hresult hresult'
  · obtain ⟨rfl, hresult'⟩ | ⟨n, rfl, -, -⟩ := h'.destination
    · exact absurd hresult' hresult
    · rw [hlength]
      rfl

variable (h' : r.CallsFrom first' g' scope' as' destination')

include h'

/-- Two calls that have a quad in common end with the same one. -/
theorem last_eq (hle : first' ≤ first)
    (hlast : first ≤ first' + (as'.length + destination'.toList.length)) :
    first + (as.length + destination.toList.length) =
      first' + (as'.length + destination'.toList.length) := by
  -- both end with the first call from there on
  rcases Nat.lt_trichotomy (first + (as.length + destination.toList.length))
    (first' + (as'.length + destination'.toList.length)) with hlt | heq | hlt
  · have hop := h'.op (by omega) hlt.le h.quad_call
    rw [if_neg hlt.ne] at hop
    cases hop
  · exact heq
  · have hop := h.op hlast hlt.le h'.quad_call
    rw [if_neg hlt.ne] at hop
    cases hop

/-- Two calls that end with the same quad call the same function. -/
theorem callee_eq
    (hend : first + (as.length + destination.toList.length) =
      first' + (as'.length + destination'.toList.length)) : g = g' ∧ scope = scope' := by
  have hlabel : calleeLabel g scope = calleeLabel g' scope' := by
    have hquad := congrArg (Option.bind · Quad.callee?) h.quad_call
    rw [hend, h'.quad_call] at hquad
    exact (Option.some.inj hquad).symm
  have hname : g.name = g'.name := by
    rw [← name_calleeLabel g scope, hlabel, name_calleeLabel]
  have hvisible := h.visible
  rw [hname, h'.visible] at hvisible
  cases hvisible
  exact ⟨rfl, rfl⟩

/-- A quad belongs to one call at most. -/
theorem first_eq (hle : first' ≤ first)
    (hlast : first ≤ first' + (as'.length + destination'.toList.length)) : first' = first := by
  have hend := h.last_eq h' hle hlast
  obtain ⟨rfl, rfl⟩ := h.callee_eq h' hend
  have hlength := h.length_eq h'
  omega

end CallsFrom

end CompiledFunction

namespace Compiles

open CompiledFunction

variable {r : CompiledFunction} {i first : Nat} {q : Quad} {g : FunctionDecl} {scope : Int}
  {as : List Argument} {destination : Option Nat}

/-- Arguments and calls are parts of calls. -/
theorem exists_callsFrom (h : r.WellTyped) (hi : r.first ≤ i)
    (hq : r.closed.code.quads[i]? = some q) (hop : q.op = .par ∨ q.op = .call) :
    ∃ first g scope as destination, r.CallsFrom first g scope as destination ∧ first ≤ i ∧
      i ≤ first + (as.length + destination.toList.length) := by
  obtain ⟨x, g, scope, first, qs, hx, hqs, hstands, hfirst, hlast⟩ : ∃ x g scope first qs,
      r.site.env.find? x = some ⟨.fn g, scope⟩ ∧
      CallQuads r.site.Types g (calleeLabel g scope) qs ∧ r.closed.code.Stands first qs ∧
      first ≤ i ∧ i < first + qs.length := by
    have htyped := h.quads i q hi hq
    obtain ⟨op, _, _, _⟩ := q
    obtain rfl | rfl := hop <;> exact htyped
  obtain rfl : g.name = x := Environment.name_of_find? hx
  cases hqs with
  | @effect as hresult has =>
    have hquads : effectCallQuads as (calleeLabel g scope) =
        callQuads as none (calleeLabel g scope) := by
      simp [effectCallQuads, callQuads]
    rw [hquads] at hstands hlast
    rw [length_callQuads] at hlast
    exact ⟨first, g, scope, as, none, ⟨hx, hstands, has, .inl ⟨rfl, hresult⟩⟩, hfirst, by omega⟩
  | @result as n hresult hn has =>
    have hquads : resultCallQuads as n (calleeLabel g scope) =
        callQuads as (some n) (calleeLabel g scope) := by
      simp [resultCallQuads, callQuads]
    rw [hquads] at hstands hlast
    rw [length_callQuads] at hlast
    exact ⟨first, g, scope, as, some n, ⟨hx, hstands, has, .inr ⟨n, rfl, hresult, hn⟩⟩, hfirst,
      by omega⟩

end Compiles

/-! ### What is remembered -/

namespace Lower

variable {site : FunctionSite} {n : Nat} {b b' : Assembly}

/-- A quad is lowered after its label, which changes nothing that is remembered. -/
theorem exists_of_numbered {q : Quad} (h : numbered site q n b = .ok () b') :
    ∃ b1, b.Appends b1 (if site.code.isTarget n then [.label (Assembly.quadLabel n)] else []) ∧
      quad site q b1 = .ok () b' ∧ b1.arguments = b.arguments ∧
      b1.destination = b.destination := by
  unfold numbered at h
  dsimp only at h
  split at h
  · rename_i htarget
    rw [if_pos htarget]
    exact ⟨{ b with lines := b.lines.push (.label (Assembly.quadLabel n)) },
      ⟨Array.toList_push, prefix_rfl⟩, h, rfl, rfl⟩
  · rename_i htarget
    rw [if_neg htarget]
    exact ⟨b, .refl b, h, rfl, rfl⟩

theorem remembered_argument {a : Argument}
    (h : numbered site (argumentQuad a) n b = .ok () b') :
    b'.arguments = b.arguments ++ [a] ∧ b'.destination = b.destination := by
  obtain ⟨b1, -, hrun, harguments, hdestination⟩ := exists_of_numbered h
  obtain ⟨value, byReference⟩ := a
  cases byReference with
  | true =>
    cases hrun
    exact ⟨congrArg (· ++ _) harguments, hdestination⟩
  | false =>
    cases hrun
    exact ⟨congrArg (· ++ _) harguments, hdestination⟩

theorem remembered_destination {t : Nat}
    (h : numbered site (destinationQuad t) n b = .ok () b') :
    b'.arguments = b.arguments ∧ b'.destination = some (.temp t) := by
  obtain ⟨b1, -, hrun, harguments, -⟩ := exists_of_numbered h
  cases hrun
  exact ⟨harguments, rfl⟩

end Lower

namespace CompiledFunction.CallsFrom

variable {r : CompiledFunction} {p : Progress} {first : Nat} {g : FunctionDecl} {scope : Int}
  {as : List Argument} {destination : Option Nat}

theorem first_lt (h : r.CallsFrom first g scope as destination) (hcloses : r.Closes p)
    (hle : r.first ≤ first + (as.length + destination.toList.length)) : r.first < first := by
  by_contra hnot
  have hop := h.op (Nat.le_of_not_lt hnot) hle hcloses.quad_first
  split at hop <;> cases hop

/-- Nothing is remembered in front of a call. -/
theorem idle (h : r.CallsFrom first g scope as destination) (hcloses : r.Closes p)
    (hopened : r.opened.Settled) (htyped : r.WellTyped) (hfirst : r.first < first)
    (hlast : first ≤ r.last + 1) : (r.before first).Idle := by
  refine (hcloses.prepared hopened hfirst.le hlast).2.resolve_right ?_
  rintro ⟨k, q, rfl, hk, hq, hpar⟩
  obtain ⟨first', g', scope', as', destination', h', hle, hge⟩ :=
    Compiles.exists_callsFrom htyped hk hq (.inl hpar)
  -- an argument right in front would belong to the same call
  have hop := h'.op hle hge hq
  have hne : k ≠ first' + (as'.length + destination'.toList.length) := by
    intro heq
    rw [if_pos heq, hpar] at hop
    cases hop
  have := h.first_eq h' (by omega) (by omega)
  omega

/-- At a call its arguments are remembered, and where its result goes. -/
theorem remembered (h : r.CallsFrom first g scope as destination) (hcloses : r.Closes p)
    (hopened : r.opened.Settled) (htyped : r.WellTyped) (hfirst : r.first < first)
    (hlast : first ≤ r.last + 1) :
    (r.before (first + (as.length + destination.toList.length))).arguments = as ∧
      (r.before (first + (as.length + destination.toList.length))).destination =
        destination.map .temp := by
  obtain ⟨harguments, hdestination⟩ := h.idle hcloses hopened htyped hfirst hlast
  have hrun : ∀ k q, (callQuads as destination (calleeLabel g scope))[k]? = some q →
      numbered r.site q (first + k) (r.before (first + k)) =
        .ok () (r.before (first + k + 1)) := fun k q hq =>
    hcloses.numbered_run hopened (by omega) (h.stands k q hq)
  -- each argument is remembered behind those in front of it
  have hpassed : ∀ k ≤ as.length, (r.before (first + k)).arguments = as.take k ∧
      (r.before (first + k)).destination = none := by
    intro k hk
    induction k with
    | zero => exact ⟨harguments, hdestination⟩
    | succ k ih =>
      obtain ⟨hargs, hdest⟩ := ih (by omega)
      have hat : as[k]? = some as[k] := getElem?_eq_getElem (by omega)
      have hquad : (callQuads as destination (calleeLabel g scope))[k]? =
          some (argumentQuad as[k]) := by
        rw [callQuads, append_assoc, getElem?_append_left (by simpa using hk),
          getElem?_map, hat, Option.map_some]
      obtain ⟨hargs', hdest'⟩ := remembered_argument (hrun k _ hquad)
      rw [← Nat.add_assoc]
      refine ⟨?_, hdest'.trans hdest⟩
      rw [hargs', hargs, take_add_one, hat]
      rfl
  obtain ⟨hargs, hdest⟩ := hpassed as.length le_rfl
  rw [take_length] at hargs
  cases destination with
  | none => exact ⟨hargs, hdest⟩
  | some n =>
    have hquad : (callQuads as (some n) (calleeLabel g scope))[as.length]? =
        some (destinationQuad n) := by
      simp [callQuads]
    obtain ⟨hargs', hdest'⟩ := remembered_destination (hrun _ _ hquad)
    exact ⟨hargs'.trans hargs, hdest'⟩

end CompiledFunction.CallsFrom

end BlockLang
