import BlockLang.Proofs.Simulation.Function
import BlockLang.Proofs.Tree.Undisturbed

/-!
# When operands are read

A variable or a cell is named by its operand and read by the quad that uses it. A call in a later
operand may have changed it by then: the quads of `g(x, f())` hand over what `x` holds after `f`
has returned. They evaluate by value where no operand is changed between its evaluation and its
use.
-/

namespace BlockLang

namespace Emit

/-- Let a function body be accepted, with calls that do anything, and let no subscript
be out of range when it is run in the memory `s`. The machine that starts at the quad
after the start of the function comes to the end of the function, or to a return, if and
only if the body does with its operands read late, in the same memory and with the same
result. If no operand is changed between its evaluation and its use, this is the ending
to which the body comes with every operand read before the next one is evaluated. -/
theorem operands_read_late {f : FunctionDecl} {label : FunctionLabel} {body : List Stmt}
    {p p' : Progress} (h : closeFunction f label body p = .ok () p') (ctx : Context)
    (henv : ctx.env = p.env) (temps : Nat → Word) (s : Store)
    (hrange : ¬ (Stmt.block body).Runs ctx .late s (.failed .outOfRange)) :
    ∃ last, p'.code.IsFunction p.code.next last ∧
      (∀ S, (Stmt.block body).Runs ctx .late s (.finished S) ↔
        ∃ m, (Machine.idle (p.code.next + 1) temps s).Reaches ctx p'.code m ∧
          m.Finished p'.code last S) ∧
      (∀ v S, (Stmt.block body).Runs ctx .late s (.returned v S) ↔
        ∃ m, (Machine.idle (p.code.next + 1) temps s).Reaches ctx p'.code m ∧
          m.Returned p'.code (p.code.next + 1) last v S) ∧
      ((Stmt.block body).Undisturbed ctx s → ∀ ending,
        (Stmt.block body).Runs ctx .atOnce s ending ↔
          (Stmt.block body).Runs ctx .late s ending) := by
  obtain ⟨last, hfunction, hlast, hp⟩ := closeFunction_placed h henv.symm
  exact ⟨last, hfunction, hp.finished_iff hlast temps hrange, hp.returned_iff hlast temps hrange,
    fun hundisturbed ending => hundisturbed.runs_iff .atOnce .late⟩

/-! ### An argument that is changed before it is handed over -/

/-- The arguments are a variable and a call that assigns to it. -/
def changedArgument : List Stmt :=
  [.returnValue .start (.call .start "g" [.name .start "x", .call .start "f" []])]

/-- A variable, a function without parameters and one with two have been declared. -/
def changedArgumentStart : Progress :=
  let byValue (x : String) : Parameter := ⟨⟨x, .start, .int, []⟩, false, false⟩
  { env := ⟨[⟨.fn ⟨"g", .start, .int, [byValue "a", byValue "b"], true, 0⟩, 0⟩,
      ⟨.fn ⟨"f", .start, .int, [], true, 0⟩, 0⟩, ⟨.var ⟨"x", .start, .int, []⟩, 0⟩], 0⟩ }

/-- The function without parameters writes two to the variable; the other one returns
its first argument. -/
def changedArgumentContext : Context where
  env := changedArgumentStart.env
  address _ := 4
  rows _ := 0
  literal _ := 0
  call _ passed s :=
    match passed with
    | .value a :: _ => some (a, s)
    | _ => some (0, s.write .int 4 2)

/-- Evaluated by value the body returns what the variable holds at first, which is zero.
The quads return two. -/
theorem operands_read_late_changedArgument :
    ∃ p' last S m, closeFunction ⟨"h", .start, .int, [], true, 0⟩ ⟨"h", some 0, 0⟩ changedArgument
        changedArgumentStart = .ok () p' ∧
      p'.code.IsFunction 0 last ∧
      (Stmt.block changedArgument).Runs changedArgumentContext .atOnce (fun _ => 0)
        (.returned (some 0) S) ∧
      (Machine.idle 1 (fun _ => 0) (fun _ => 0)).Reaches changedArgumentContext p'.code m ∧
      m.Returned p'.code 1 last (some 2) S := by
  have hok : result? (closeFunction ⟨"h", .start, .int, [], true, 0⟩ ⟨"h", some 0, 0⟩
      changedArgument changedArgumentStart) = some () := by decide +kernel
  obtain ⟨p', hp'⟩ := result?_eq_some hok
  have hlate : (Stmt.block changedArgument).Runs changedArgumentContext .late (fun _ => 0)
      (.returned (some 2) (Store.write (fun _ => 0) .int 4 2)) := .consReturned .returnValue
  obtain ⟨last, hfunction, -, hreturned, -⟩ := operands_read_late hp' changedArgumentContext rfl
    (fun _ => 0) (fun _ => 0) (fun hfault => nomatch hlate.unique hfault)
  obtain ⟨m, hm, hret⟩ := (hreturned _ _).mp hlate
  exact ⟨p', last, _, m, hp', hfunction, .consReturned .returnValue, hm, hret⟩

end Emit

end BlockLang
