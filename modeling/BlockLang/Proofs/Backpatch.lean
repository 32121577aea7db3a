import BlockLang.Proofs.Emit.Record
import BlockLang.Proofs.Program.Code

/-!
# Patching is complete and exact

A rule of translation hands on exactly the new quads that are pending. When the translation of a
program is complete, every jump has been led to a quad of its function, no quad has been patched
twice, and the marked quads are those to which a jump leads.
-/

namespace BlockLang

/-- A list holds, without duplicates, the quads that have been appended and are
pending. -/
def Progress.LeavesPending (p p' : Progress) (pending : List Nat) : Prop :=
  pending.Nodup ∧ ∀ i, i ∈ pending ↔ p.code.next ≤ i ∧ p'.code.IsPending i

theorem Progress.Emits.leavesPending {lo : Nat} {p p' : Progress} {pending : List Nat}
    (h : p.Emits lo p' pending) : p.LeavesPending p' pending :=
  ⟨h.grows.nodup, h.grows.mem_iff⟩

namespace Emit

/-- Conditions and statements hand on exactly the jumps that they leave pending. In
an accepted program no quad is patched twice, no jump stays pending, every jump leads
to a quad after the start of its function and not after its end, and a quad is
marked as a target if and only if some jump leads to it. -/
theorem backpatching_exact :
    (∀ e p p' exits, condition e p = .ok exits p' →
      p.LeavesPending p' (exits.whenTrue ++ exits.whenFalse)) ∧
    (∀ function result s p p' pending, statement function result s p = .ok pending p' →
      p.LeavesPending p' pending) ∧
    (∀ function result ss p p' pending, statements function result [] ss p = .ok pending p' →
      p.LeavesPending p' pending) ∧
    ∀ tree p, program tree {} = .ok () p →
      (∃ log, Recorded.program tree [] {} = .ok ((), log) p ∧ log.Nodup) ∧
      (∀ i, ¬ p.code.IsPending i) ∧
      (∀ i t, p.code.JumpsTo i t → ∃ first last, p.code.IsFunction first last ∧
        first < i ∧ i < last ∧ first < t ∧ t ≤ last) ∧
      ∀ t, p.code.isTarget t ↔ ∃ i, p.code.JumpsTo i t := by
  refine ⟨fun e p p' exits h => ?_, fun function result s p p' pending h => ?_,
    fun function result ss p p' pending h => ?_, fun tree p h => ?_⟩
  · exact (condition_emits e (Nat.zero_le _) h).leavesPending
  · exact (statement_emits function result s (Nat.zero_le _) h).leavesPending
  · exact (statements_emits function result ss (Nat.zero_le _) (.refl 0 p) h).leavesPending
  · obtain ⟨log, hrun, hlog⟩ := Recorded.program_run (.nil _) h
    have hcomplete : p.code.Complete := by
      cases tree with
      | none => cases h
      | some tree =>
        obtain ⟨rs, hcompiles⟩ := program_compiles h
        exact hcompiles.code_complete.1
    exact ⟨⟨log, hrun, hlog.nodup⟩, hcomplete.not_pending, hcomplete.inside,
      hcomplete.isTarget_iff⟩

/-- A loop over a negated disjunction, with a return inside a branch. -/
def leavingLoop : Decl :=
  .function ⟨"main", .start, [], .nothing⟩ []
    [.whileDo
      (.not .start (.logic .start .or (.compare .start .equal (.int .start 0) (.int .start 1))
        (.compare .start .less (.int .start 2) (.int .start 1))))
      (.ifThen (.compare .start .less (.int .start 0) (.int .start 1)) (.returnNothing .start))]

/-- Each of the six jumps of the comparisons is patched once; the jump that closes the
loop is not. -/
theorem backpatching_exact_leavingLoop :
    ∃ p, program (some leavingLoop) {} = .ok () p ∧
      Recorded.program (some leavingLoop) [] {} = .ok ((), [2, 4, 5, 6, 1, 3]) p ∧
      ∀ i, ¬ p.code.IsPending i := by
  have hok : result? (program (some leavingLoop) {}) = some () := by decide +kernel
  have hlog : result? (Recorded.program (some leavingLoop) [] {}) =
      some ((), [2, 4, 5, 6, 1, 3]) := by decide +kernel
  obtain ⟨p, hp⟩ := result?_eq_some hok
  obtain ⟨⟨log, hrun, -⟩, hpending, -⟩ := backpatching_exact.2.2.2 (some leavingLoop) p hp
  obtain ⟨p', hp'⟩ := result?_eq_some hlog
  obtain ⟨rfl, rfl⟩ : log = [2, 4, 5, 6, 1, 3] ∧ p = p' := by
    rw [hrun] at hp'
    cases hp'
    exact ⟨rfl, rfl⟩
  exact ⟨p, hp, hrun, hpending⟩

end Emit

end BlockLang
