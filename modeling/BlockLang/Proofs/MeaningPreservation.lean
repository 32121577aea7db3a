import BlockLang.Proofs.Simulation.Function
import BlockLang.Proofs.Tree.CallFree

/-!
# Meaning preservation

The quads of a function body without calls do what the body says, evaluated from left to right with
every operand read at once. One comes to an end if and only if the other does, in the same memory
and with the same result.
-/

namespace BlockLang

namespace Emit

/-- Let a function body without calls be accepted, and let no subscript be out of range
when it is run in the memory `s`. The machine that starts at the quad after the start of
the function comes to the end of the function in the memory `S` if and only if the body
is finished in `S`. It stops at a return of the function in the memory `S`, with `v` as
the result, if and only if the body reaches a return of `v` in `S`. -/
theorem meaning_preserved {f : FunctionDecl} {label : FunctionLabel} {body : List Stmt}
    {p p' : Progress} (h : closeFunction f label body p = .ok () p')
    (hfree : Stmt.allCallFree body) (ctx : Context) (henv : ctx.env = p.env)
    (temps : Nat → Word) (s : Store)
    (hrange : ¬ (Stmt.block body).Runs ctx .atOnce s (.failed .outOfRange)) :
    ∃ last, p'.code.IsFunction p.code.next last ∧
      (∀ S, (Stmt.block body).Runs ctx .atOnce s (.finished S) ↔
        ∃ m, (Machine.idle (p.code.next + 1) temps s).Reaches ctx p'.code m ∧
          m.Finished p'.code last S) ∧
      ∀ v S, (Stmt.block body).Runs ctx .atOnce s (.returned v S) ↔
        ∃ m, (Machine.idle (p.code.next + 1) temps s).Reaches ctx p'.code m ∧
          m.Returned p'.code (p.code.next + 1) last v S := by
  obtain ⟨last, hfunction, hlast, hp⟩ := closeFunction_placed h henv.symm
  -- without calls it makes no difference that the quads read their operands late
  have hfree' : (Stmt.block body).callFree := hfree
  have hreading : ∀ ending, (Stmt.block body).Runs ctx .atOnce s ending ↔
      (Stmt.block body).Runs ctx .late s ending :=
    fun _ => (Stmt.undisturbed_of_callFree hfree' s).runs_iff .atOnce .late
  rw [hreading] at hrange
  refine ⟨last, hfunction, fun S => ?_, fun v S => ?_⟩
  · rw [hreading]
    exact hp.finished_iff hlast temps hrange S
  · rw [hreading]
    exact hp.returned_iff hlast temps hrange v S

/-! ### A function that fills an array -/

/-- A loop that writes to the cells of an array, and a return of the last cell. -/
def fillArray : List Stmt :=
  let i : Expr := .name .start "i"
  let cell (subscript : Expr) : Expr := .index .start (.name .start "a") subscript []
  [.whileDo (.compare .start .less i (.int .start 2))
    (.block [.assign .start (cell i) i,
      .assign .start i (.arith .start .add i (.int .start 1))]),
    .returnValue .start (cell (.arith .start .sub i (.int .start 1)))]

/-- An array of two cells and an integer have been declared. -/
def fillArrayStart : Progress :=
  { env := ⟨[⟨.var ⟨"a", .start, .int, [2]⟩, 0⟩, ⟨.var ⟨"i", .start, .int, []⟩, 0⟩], 0⟩ }

/-- The array stands behind the integer. -/
def fillArrayContext : Context :=
  ⟨fillArrayStart.env, fun x => if x = "a" then 8 else 4, fun _ => 0, fun _ => 0, fun _ _ _ => none⟩

/-- The loop is left after two turns, and the last cell holds one. -/
theorem meaning_preserved_fillArray :
    ∃ p' last S m, closeFunction ⟨"fill", .start, .int, [], true, 0⟩ ⟨"fill", some 0, 0⟩ fillArray
        fillArrayStart = .ok () p' ∧
      p'.code.IsFunction 0 last ∧
      (Stmt.block fillArray).Runs fillArrayContext .atOnce (fun _ => 0) (.returned (some 1) S) ∧
      (Machine.idle 1 (fun _ => 0) (fun _ => 0)).Reaches fillArrayContext p'.code m ∧
      m.Returned p'.code 1 last (some 1) S := by
  have hok : result? (closeFunction ⟨"fill", .start, .int, [], true, 0⟩ ⟨"fill", some 0, 0⟩
      fillArray fillArrayStart) = some () := by decide +kernel
  obtain ⟨p', hp'⟩ := result?_eq_some hok
  obtain ⟨S, hruns⟩ : ∃ S, (Stmt.block fillArray).Runs fillArrayContext .atOnce (fun _ => 0)
      (.returned (some 1) S) :=
    ⟨_, .cons (.whileAgain rfl (.cons .assign (.cons .assign .nil))
      (.whileAgain rfl (.cons .assign (.cons .assign .nil)) (.whileDone rfl)))
      (.consReturned .returnValue)⟩
  obtain ⟨last, hfunction, -, hreturned⟩ := meaning_preserved hp' (by decide) fillArrayContext rfl
    (fun _ => 0) (fun _ => 0) (fun hfault => nomatch hruns.unique hfault)
  obtain ⟨m, hm, hret⟩ := (hreturned (some 1) S).mp hruns
  exact ⟨p', last, S, m, hp', hfunction, hruns, hm, hret⟩

end Emit

end BlockLang
