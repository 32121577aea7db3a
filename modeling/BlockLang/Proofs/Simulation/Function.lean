import BlockLang.Proofs.Emit.Declaration
import BlockLang.Proofs.Simulation.Statement

/-!
# The code of functions follows the meaning of their bodies

A machine that is put at the first quad of the body comes to the end of the function if and only if
the body is finished, and stops at a return if and only if a return is reached, with the same
memory and the same result. This holds for values that are read late, as long as all subscripts are
in range.
-/

namespace BlockLang

open Code Machine

namespace Emit

variable {ctx : Context} {code : Code} {p p' : Progress}

/-- The body of a function stands between its start and its end. -/
theorem closeFunction_placed {f : FunctionDecl} {label : FunctionLabel} {body : List Stmt}
    (h : closeFunction f label body p = .ok () p') (henv : p.env = ctx.env) :
    ∃ last, p'.code.IsFunction p.code.next last ∧ p'.code.quads[last]? = some (.finish label) ∧
      Placed ctx p'.code f.name f.result (.block body) (p.code.next + 1) last last := by
  obtain ⟨pending, p1, p2, p3, hbody, -, hlower, hdivide, hleave⟩ := closeFunction_ok h
  obtain ⟨_, _, -, -, hp2⟩ := lowerFunction_ok hlower
  have hcode : p'.code = (p1.code.patch pending p1.code.next).push (.finish label) := by
    rw [code_leaveScope hleave, divideFunction_ok hdivide, hp2]
    rfl
  have e := statements_emits f.name f.result body (Nat.zero_le _) (.refl 0 _) hbody
  have hC2 : (p1.code.patch pending p1.code.next).Continues p'.code := hcode ▸ .push _ _
  have hC1 := (continues_patch e (List.Subset.refl _) p1.code.next).code.trans hC2
  refine ⟨p1.code.next, ?_, ?_, ?_⟩
  · have hgrows := (e.patchHere (.of_eq pending.append_nil.symm)).grows.isFunction
    rwa [Progress.withCode_code, next_patch, ← hcode] at hgrows
  · rw [hcode, getElem?_push, if_pos (next_patch _).symm]
  · exact ⟨p.appended (.start label), p1, pending, by rwa [statement], henv, hC1,
      leads_patch e (List.Subset.refl _) hC2, next_push, rfl⟩

namespace Placed

variable {function : String} {result : Ty} {stmt : Stmt} {first last : Nat} {s : Store}

/-- Where the machine comes to a standstill the statement comes to an ending. -/
theorem exists_ending (hp : Placed ctx code function result stmt first last last)
    {temps : Nat → Word} {m : Machine} (hm : (idle first temps s).Reaches ctx code m)
    (hstill : m.step? ctx code = none) : ∃ ending, stmt.Runs ctx .late s ending := by
  obtain ⟨n, hn⟩ := hm
  rcases proceeds stmt hp (n + 1) temps s with hends | ⟨m', hm'⟩
  · exact hends
  · exact absurd (hn.le_of_standstill hstill hm') (Nat.not_succ_le_self n)

section Endings

variable {label : FunctionLabel} (hp : Placed ctx code function result stmt first last last)
  (hlast : code.quads[last]? = some (.finish label)) (temps : Nat → Word)

include hp hlast

/-- A statement that is finished leads to the end of the function. -/
theorem finished {S : Store} (h : stmt.Runs ctx .late s (.finished S)) :
    ∃ m, (idle first temps s).Reaches ctx code m ∧ m.Finished code last S := by
  obtain ⟨q, temps', hq, hreach⟩ := hp.meets h temps
  obtain rfl := hq.elim id id
  exact ⟨_, hreach, ⟨.inl rfl, _, hlast, rfl⟩, rfl, rfl⟩

variable (hrange : ¬ stmt.Runs ctx .late s (.failed .outOfRange))

include hrange

/-- A machine that has stopped has met the ending of the statement, unless a subscript
was out of range. -/
theorem ending_of_halted {op : Opcode} {m : Machine}
    (hm : (idle first temps s).Reaches ctx code m) (hhalt : m.Halted code op) :
    (∃ S, stmt.Runs ctx .late s (.finished S) ∧ m.Finished code last S) ∨
      ∃ v S, stmt.Runs ctx .late s (.returned v S) ∧ m.Returned code first last v S := by
  have hstill : m.step? ctx code = none := hhalt.step?_eq_none
  obtain ⟨ending, hruns⟩ := hp.exists_ending hm hstill
  -- whatever the ending is, the machine that meets it comes to the same standstill
  match ending, hruns with
  | .finished S, hruns =>
    obtain ⟨m', hm', hend⟩ := hp.finished hlast temps hruns
    obtain rfl := hm.standstill_unique hstill hm' hend.1.step?_eq_none
    exact .inl ⟨S, hruns, hend⟩
  | .returned v S, hruns =>
    obtain ⟨m', hm', hret⟩ := hp.meets hruns temps
    obtain rfl := hm.standstill_unique hstill hm' hret.1.step?_eq_none
    exact .inr ⟨v, S, hruns, hret⟩
  | .failed .undefined, hruns =>
    obtain ⟨m', hm', hstill', hnot⟩ := hp.meets hruns temps
    obtain rfl := hm.standstill_unique hstill hm' hstill'
    exact absurd hhalt (hnot op)
  | .failed .outOfRange, hruns => exact absurd hruns hrange

/-- The machine comes to the end of the function if and only if the statement is
finished. -/
theorem finished_iff (S : Store) :
    stmt.Runs ctx .late s (.finished S) ↔
      ∃ m, (idle first temps s).Reaches ctx code m ∧ m.Finished code last S := by
  refine ⟨hp.finished hlast temps, fun ⟨m, hm, hhalt, _, hstore⟩ => ?_⟩
  rcases hp.ending_of_halted hlast temps hrange hm hhalt with
    ⟨S', hruns, -, -, hstore'⟩ | ⟨v, S', -, hhalt', -⟩
  · rwa [← hstore, hstore']
  · cases hhalt.unique hhalt'

/-- The machine stops at a return if and only if the statement reaches one. -/
theorem returned_iff (v : Option Word) (S : Store) :
    stmt.Runs ctx .late s (.returned v S) ↔
      ∃ m, (idle first temps s).Reaches ctx code m ∧ m.Returned code first last v S := by
  refine ⟨fun h => hp.meets h temps, fun ⟨m, hm, hhalt, _, _, hstore, hresult⟩ => ?_⟩
  rcases hp.ending_of_halted hlast temps hrange hm hhalt with
    ⟨S', -, hhalt', -⟩ | ⟨v', S', hruns, -, -, -, hstore', hresult'⟩
  · cases hhalt.unique hhalt'
  · rwa [← hstore, ← hresult, hstore', hresult']

end Endings

end Placed

end Emit

end BlockLang
