import BlockLang.Proofs.Quad.WellFormed
import Mathlib.Data.List.Nodup
import Mathlib.Data.List.Perm.Basic

/-!
# Growth of code

Translating a part of a function body appends quads, leaves those before them alone and hands on
the list of the new pending jumps. The lemmas below follow the ways in which a rule puts its code
together: parts in a row, single quads, and patching.
-/

namespace BlockLang

open List

namespace Quad

/-- A quad of a function body that does not jump. -/
def IsPlain (q : Quad) : Prop :=
  match q.op with
  | .assign | .array | .arith _ | .par | .call | .ret => True
  | _ => False

theorem IsPlain.not_isBranch {q : Quad} (h : q.IsPlain) : ¬ q.op.IsBranch := by
  rintro (hop | ⟨r, hop⟩) <;> simp [IsPlain, hop] at h

theorem IsPlain.inner {q : Quad} (h : q.IsPlain) : q.op ≠ .unit ∧ q.op ≠ .endUnit := by
  constructor <;> intro hop <;> simp [IsPlain, hop] at h

/-- In a list of quads the arguments of a call stand right in front of it. -/
def CallsComplete (qs : List Quad) : Prop :=
  ∀ i q, qs[i]? = some q → q.op = .par → ∃ r, qs[i + 1]? = some r ∧ (r.op = .par ∨ r.op = .call)

/-- An argument may stand in front of another one or of the call. -/
theorem CallsComplete.cons {q r : Quad} {qs : List Quad} (h : CallsComplete (r :: qs))
    (hr : r.op = .par ∨ r.op = .call) : CallsComplete (q :: r :: qs) := by
  intro i s hs hop
  cases i with
  | zero => exact ⟨r, rfl, hr⟩
  | succ i => exact h i s hs hop

theorem callsComplete_singleton {q : Quad} (h : q.op ≠ .par) : CallsComplete [q] := by
  intro i r hr hop
  rw [getElem?_singleton] at hr
  split at hr
  · cases hr
    exact absurd hop h
  · cases hr

end Quad

namespace Code

variable {env : Environment} {lo t : Nat} {c c1 c2 : Code} {l l' : List Nat} {q : Quad}

def pushAll (c : Code) (qs : List Quad) : Code := { c with quads := c.quads ++ qs.toArray }

theorem pushAll_nil : c.pushAll [] = c := by simp [pushAll]

theorem pushAll_singleton : c.pushAll [q] = c.push q := by simp [pushAll, push]

theorem pushAll_cons (qs : List Quad) : c.pushAll (q :: qs) = (c.push q).pushAll qs := by
  simp [pushAll, push]

theorem next_pushAll (qs : List Quad) : (c.pushAll qs).next = c.next + qs.length := by
  simp [pushAll, next]

theorem getElem?_pushAll (qs : List Quad) (i : Nat) :
    (c.pushAll qs).quads[i]? = if i < c.next then c.quads[i]? else qs[i - c.next]? := by
  simp only [pushAll, Array.getElem?_append, getElem?_toArray]
  rfl

/-- The second code is the first with quads of a function body appended, and the
pending ones among these are listed. The temporaries in use are those from `lo`
on. -/
structure Grows (env : Environment) (lo : Nat) (c c' : Code) (pending : List Nat) : Prop where
  next_le : c.next ≤ c'.next
  below : ∀ i, i < c.next → c'.quads[i]? = c.quads[i]?
  ext : c.Extends c'
  wellFormed : ∀ i q, c.next ≤ i → c'.quads[i]? = some q →
    q.WellFormed env c' lo ∧ q.op ≠ .unit ∧ q.op ≠ .endUnit
  /-- The arguments of a call stand right in front of it. -/
  calls : ∀ i q, c.next ≤ i → c'.quads[i]? = some q → q.op = .par →
    ∃ r, c'.quads[i + 1]? = some r ∧ (r.op = .par ∨ r.op = .call)
  nodup : pending.Nodup
  mem_iff : ∀ i, i ∈ pending ↔ c.next ≤ i ∧ c'.IsPending i
  target : ∀ i t, c.next ≤ i → c'.JumpsTo i t → c.next ≤ t ∧ t ≤ c'.next
  isTarget : ∀ t, c'.isTarget t ↔ c.isTarget t ∨ ∃ i, c.next ≤ i ∧ c'.JumpsTo i t

namespace Grows

theorem refl (env : Environment) (lo : Nat) (c : Code) : Grows env lo c c [] where
  next_le := Nat.le_refl _
  below _ _ := rfl
  ext := .refl c
  wellFormed _ _ hi hq := absurd (lt_next_of_getElem? hq) (Nat.not_lt.mpr hi)
  calls _ _ hi hq := absurd (lt_next_of_getElem? hq) (Nat.not_lt.mpr hi)
  nodup := nodup_nil
  mem_iff i := by
    simp only [not_mem_nil, false_iff, not_and]
    exact fun hi hp => absurd hp.lt_next (Nat.not_lt.mpr hi)
  target _ _ hi hj := absurd hj.lt_next (Nat.not_lt.mpr hi)
  isTarget t := by
    simp only [iff_self_or, forall_exists_index, and_imp]
    exact fun i hi hj => absurd hj.lt_next (Nat.not_lt.mpr hi)

variable (h : Grows env lo c c1 l)

include h

theorem perm (hl : l.Perm l') : Grows env lo c c1 l' :=
  { h with
    nodup := hl.nodup_iff.mp h.nodup
    mem_iff := fun i => hl.mem_iff.symm.trans (h.mem_iff i) }

theorem pending_lt {i : Nat} (hi : i ∈ l) : i < c1.next :=
  ((h.mem_iff i).mp hi).2.lt_next

/-- Growth in two parts: what is pending after the first part is still pending
after the second, which does not touch it. -/
theorem trans (h' : Grows env lo c1 c2 l') :
    Grows env lo c c2 (l ++ l') where
  next_le := Nat.le_trans h.next_le h'.next_le
  below i hi := (h'.below i (Nat.lt_of_lt_of_le hi h.next_le)).trans (h.below i hi)
  ext := h.ext.trans h'.ext
  wellFormed i q hi hq := by
    by_cases hlt : i < c1.next
    · rw [h'.below i hlt] at hq
      exact (h.wellFormed i q hi hq).imp_left (·.mono h'.ext)
    · exact h'.wellFormed i q (Nat.le_of_not_lt hlt) hq
  calls i q hi hq hop := by
    by_cases hlt : i < c1.next
    · rw [h'.below i hlt] at hq
      obtain ⟨r, hr, hrop⟩ := h.calls i q hi hq hop
      exact ⟨r, (h'.below _ (lt_next_of_getElem? hr)).trans hr, hrop⟩
    · exact h'.calls i q (Nat.le_of_not_lt hlt) hq hop
  nodup := by
    refine nodup_append.mpr ⟨h.nodup, h'.nodup, fun i hi j hj => ?_⟩
    have hlt := h.pending_lt hi
    have hle := ((h'.mem_iff j).mp hj).1
    omega
  mem_iff i := by
    rw [mem_append, h.mem_iff, h'.mem_iff]
    by_cases hlt : i < c1.next
    · rw [isPending_congr (h'.below i hlt)]
      simp [Nat.not_le.mpr hlt]
    · have hle := Nat.le_of_not_lt hlt
      have hnot : ¬ c1.IsPending i := fun hp => hlt hp.lt_next
      simp [hnot, hle, Nat.le_trans h.next_le hle]
  target i t hi hj := by
    by_cases hlt : i < c1.next
    · rw [jumpsTo_congr (h'.below i hlt)] at hj
      exact (h.target i t hi hj).imp_right (Nat.le_trans · h'.next_le)
    · exact (h'.target i t (Nat.le_of_not_lt hlt) hj).imp_left (Nat.le_trans h.next_le)
  isTarget t := by
    rw [h'.isTarget, h.isTarget, or_assoc]
    refine or_congr_right ⟨?_, ?_⟩
    · rintro (⟨i, hi, hj⟩ | ⟨i, hi, hj⟩)
      · exact ⟨i, hi, (jumpsTo_congr (h'.below i hj.lt_next)).mpr hj⟩
      · exact ⟨i, Nat.le_trans h.next_le hi, hj⟩
    · rintro ⟨i, hi, hj⟩
      by_cases hlt : i < c1.next
      · exact .inl ⟨i, hi, (jumpsTo_congr (h'.below i hlt)).mp hj⟩
      · exact .inr ⟨i, Nat.le_of_not_lt hlt, hj⟩

theorem extend (hext : c1.Extends c2) (hq : c2.quads = c1.quads)
    (ht : ∀ t, c2.isTarget t ↔ c1.isTarget t) : Grows env lo c c2 l := by
  have hnext : c2.next = c1.next := congrArg Array.size hq
  have hquad : ∀ i : Nat, c2.quads[i]? = c1.quads[i]? := fun i => by rw [hq]
  exact {
    next_le := hnext ▸ h.next_le
    below := fun i hi => (hquad i).trans (h.below i hi)
    ext := h.ext.trans hext
    wellFormed := fun i q hi hiq => (h.wellFormed i q hi (hquad i ▸ hiq)).imp_left (·.mono hext)
    calls := fun i q hi hiq hop => by
      rw [hq] at hiq ⊢
      exact h.calls i q hi hiq hop
    nodup := h.nodup
    mem_iff := fun i => by rw [h.mem_iff, isPending_congr (hquad i)]
    target := fun i t hi hj => by
      rw [hnext]
      exact h.target i t hi ((jumpsTo_congr (hquad i)).mp hj)
    isTarget := fun t => by
      rw [ht, h.isTarget]
      simp only [JumpsTo, hq] }

/-! ### Appended quads -/

/-- Quads without jumps leave the list of pending jumps as it is. -/
theorem pushAll {qs : List Quad}
    (hqs : ∀ q ∈ qs, q.WellFormed env c1 lo ∧ q.IsPlain) (hcalls : Quad.CallsComplete qs) :
    Grows env lo c (c1.pushAll qs) l := by
  have hext : c1.Extends (c1.pushAll qs) := ⟨fun _ _ h => h, fun _ _ => rfl⟩
  have habove : ∀ i, c1.next ≤ i → (c1.pushAll qs).quads[i]? = qs[i - c1.next]? := fun i hi => by
    rw [getElem?_pushAll, if_neg (Nat.not_lt.mpr hi)]
  -- No new quad has a target or waits for one.
  have hplain : ∀ i q, c1.next ≤ i → (c1.pushAll qs).quads[i]? = some q → ¬ q.HasTarget :=
    fun i q hi hq ht => by
      have hmem := hqs q (mem_of_getElem? (habove i hi ▸ hq))
      exact hmem.2.not_isBranch (hmem.1.isBranch ht)
  have hjump : ∀ i t, c1.next ≤ i → ¬ (c1.pushAll qs).JumpsTo i t := by
    rintro i t hi ⟨q, hq, -, ho⟩
    exact hplain i q hi hq (.inr ⟨t, ho⟩)
  rw [← append_nil l]
  exact h.trans {
    next_le := by
      rw [next_pushAll]
      exact Nat.le_add_right _ _
    below := fun i hi => by rw [getElem?_pushAll, if_pos hi]
    ext := hext
    wellFormed := fun i q hi hq => by
      have hmem := hqs q (mem_of_getElem? (habove i hi ▸ hq))
      exact ⟨hmem.1.mono hext, hmem.2.inner⟩
    calls := fun i q hi hq hop => by
      rw [habove i hi] at hq
      obtain ⟨r, hr, hrop⟩ := hcalls _ q hq hop
      refine ⟨r, ?_, hrop⟩
      rw [habove _ (Nat.le_add_right_of_le hi), ← hr, Nat.sub_add_comm hi]
    nodup := nodup_nil
    mem_iff := fun i => by
      simp only [not_mem_nil, false_iff]
      rintro ⟨hi, q, hq, ho⟩
      exact hplain i q hi hq (.inl ho)
    target := fun i t hi hj => absurd hj (hjump i t hi)
    isTarget := fun t => by
      refine iff_self_or.mpr ?_
      rintro ⟨i, hi, hj⟩
      exact absurd hj (hjump i t hi) }

theorem push (hq : q.WellFormed env c1 lo) (hplain : q.IsPlain)
    (hpar : q.op ≠ .par) : Grows env lo c (c1.push q) l := by
  rw [← pushAll_singleton]
  refine h.pushAll (fun r hr => ?_) (Quad.callsComplete_singleton hpar)
  rw [mem_singleton] at hr
  exact hr ▸ ⟨hq, hplain⟩

theorem pushPending (hq : q.WellFormed env c1 lo)
    (ho : q.output = some .pending) : Grows env lo c (c1.push q) (l ++ [c1.next]) := by
  have hext : c1.Extends (c1.push q) := ⟨fun _ _ h => h, fun _ _ => rfl⟩
  have hbranch := hq.isBranch (.inl ho)
  -- the new quad jumps nowhere as long as it is pending
  have hnone : ∀ i t, c1.next ≤ i → ¬ (c1.push q).JumpsTo i t := by
    rintro i t hi ⟨r, hr, -, hro⟩
    obtain ⟨rfl, rfl⟩ := eq_of_getElem?_push hi hr
    rw [ho] at hro
    cases hro
  exact h.trans {
    next_le := by simp
    below := fun i hi => getElem?_push_of_lt hi
    ext := hext
    wellFormed := fun i r hi hr => by
      obtain ⟨rfl, rfl⟩ := eq_of_getElem?_push hi hr
      refine ⟨hq.mono hext, ?_, ?_⟩ <;> rcases hbranch with hop | ⟨r, hop⟩ <;> simp [hop]
    calls := fun i r hi hr hop => by
      obtain ⟨rfl, rfl⟩ := eq_of_getElem?_push hi hr
      rcases hbranch with hop' | ⟨r, hop'⟩ <;> simp [hop'] at hop
    nodup := nodup_singleton _
    mem_iff := fun i => by
      rw [mem_singleton]
      constructor
      · rintro rfl
        exact ⟨Nat.le_refl _, q, getElem?_push_next, ho⟩
      · rintro ⟨hi, r, hr, -⟩
        exact (eq_of_getElem?_push hi hr).1
    target := fun i t hi hj => absurd hj (hnone i t hi)
    isTarget := fun t => by
      rw [isTarget_push, iff_self_or]
      rintro ⟨i, hi, hj⟩
      exact absurd hj (hnone i t hi) }

/-! ### Patching -/

/-- Some of the pending jumps are led to a quad among the new ones or right after
them. The others stay pending. -/
theorem patch {a b : List Nat} (hl : l.Perm (a ++ b))
    (hlo : c.next ≤ t) (hhi : t ≤ c1.next) : Grows env lo c (c1.patch a t) b := by
  have hext : c1.Extends (c1.patch a t) :=
    ⟨fun n ty hn => by rwa [temps_patch], fun n _ => cell?_patch a n⟩
  have hmem : ∀ i, i ∈ a ∨ i ∈ b ↔ c.next ≤ i ∧ c1.IsPending i := fun i => by
    rw [← h.mem_iff, hl.mem_iff, mem_append]
  have hnodup := nodup_append.mp (hl.nodup_iff.mp h.nodup)
  -- A patched quad was pending, so it is a branch.
  have hpatched : ∀ i ∈ a, ∃ q, c1.quads[i]? = some q ∧ q.output = some .pending ∧
      q.op.IsBranch ∧ (c1.patch a t).quads[i]? = some (q.ledTo t) := fun i hi => by
    obtain ⟨hle, q, hq, ho⟩ := (hmem i).mp (.inl hi)
    refine ⟨q, hq, ho, (h.wellFormed i q hle hq).1.isBranch (.inl ho), ?_⟩
    rw [getElem?_patch_of_mem hi, hq]
    rfl
  have hjump : ∀ i u, (c1.patch a t).JumpsTo i u ↔ c1.JumpsTo i u ∨ i ∈ a ∧ u = t := by
    intro i u
    by_cases hi : i ∈ a
    · obtain ⟨q, hq, ho, hop, hq'⟩ := hpatched i hi
      simp only [JumpsTo, hq, hq', Option.some.injEq, exists_eq_left', Quad.ledTo_op, hop, ho,
        Quad.ledTo_output, hi, true_and, reduceCtorEq, false_or, Operand.target.injEq]
      exact eq_comm
    · rw [jumpsTo_congr (getElem?_patch_of_not_mem hi)]
      simp [hi]
  exact {
    next_le := by
      rw [next_patch]
      exact h.next_le
    below := fun i hi => by
      have hnot : i ∉ a := fun ha => Nat.not_le.mpr hi ((hmem i).mp (.inl ha)).1
      exact (getElem?_patch_of_not_mem hnot).trans (h.below i hi)
    ext := h.ext.trans hext
    wellFormed := fun i q hi hq => by
      by_cases hia : i ∈ a
      · obtain ⟨r, hr, ho, -, hr'⟩ := hpatched i hia
        obtain rfl := Option.some.inj (hr'.symm.trans hq)
        obtain ⟨hwf, hop⟩ := h.wellFormed i r hi hr
        exact ⟨(hwf.ledTo ho t).mono hext, hop⟩
      · rw [getElem?_patch_of_not_mem hia] at hq
        exact (h.wellFormed i q hi hq).imp_left (·.mono hext)
    calls := fun i q hi hq hop => by
      -- neither an argument nor what comes after it is a branch
      have hia : i ∉ a := fun hia => by
        obtain ⟨r, -, -, hbranch, hr'⟩ := hpatched i hia
        obtain rfl := Option.some.inj (hr'.symm.trans hq)
        rcases hbranch with hop' | ⟨r, hop'⟩ <;> simp [hop'] at hop
      rw [getElem?_patch_of_not_mem hia] at hq
      obtain ⟨r, hr, hrop⟩ := h.calls i q hi hq hop
      have hsucc : i + 1 ∉ a := fun hsucc => by
        obtain ⟨r', hr', -, hbranch, -⟩ := hpatched _ hsucc
        obtain rfl := Option.some.inj (hr'.symm.trans hr)
        rcases hbranch with hop' | ⟨r, hop'⟩ <;> simp [hop'] at hrop
      exact ⟨r, (getElem?_patch_of_not_mem hsucc).trans hr, hrop⟩
    nodup := hnodup.2.1
    mem_iff := fun i => by
      rw [isPending_patch, ← and_assoc, ← hmem i]
      have hdisj : i ∈ b → i ∉ a := fun hb ha => hnodup.2.2 i ha i hb rfl
      constructor
      · exact fun hb => ⟨.inr hb, hdisj hb⟩
      · rintro ⟨ha | hb, hna⟩
        · exact absurd ha hna
        · exact hb
    target := fun i u hi hj => by
      rw [next_patch]
      rcases (hjump i u).mp hj with hj | ⟨-, rfl⟩
      · exact h.target i u hi hj
      · exact ⟨hlo, hhi⟩
    isTarget := fun u => by
      rw [isTarget_patch, h.isTarget, or_assoc]
      refine or_congr_right ⟨?_, ?_⟩
      · rintro (⟨i, hi, hj⟩ | ⟨rfl, i, hi, -⟩)
        · exact ⟨i, hi, (hjump i u).mpr (.inl hj)⟩
        · exact ⟨i, ((hmem i).mp (.inl hi)).1, (hjump i u).mpr (.inr ⟨hi, rfl⟩)⟩
      · rintro ⟨i, hi, hj⟩
        rcases (hjump i u).mp hj with hj | ⟨hia, rfl⟩
        · exact .inl ⟨i, hi, hj⟩
        · exact .inr ⟨rfl, i, hia, ((hmem i).mp (.inl hia)).2.lt_next⟩ }

omit h in
/-- A jump back to the first of the new quads, which has been marked as a target. -/
theorem loop (h : Grows env lo (c.mark c.next) c1 l) :
    Grows env lo c (c1.push ⟨.jump, none, none, some (.target c.next)⟩) l := by
  have hle : c.next ≤ c1.next := h.next_le
  have hmarked : c1.isTarget c.next := (h.isTarget _).mpr (.inl (isTarget_mark.mpr (.inl rfl)))
  -- the jump is pending at first and then led back
  have hpatched := (h.pushPending (q := ⟨.jump, none, none, some .pending⟩) (.inl rfl) rfl).patch
    perm_append_comm (Nat.le_refl c.next) (by simp; omega)
  have hquads : (c1.push ⟨.jump, none, none, some (.target c.next)⟩).quads =
      ((c1.push ⟨.jump, none, none, some .pending⟩).patch [c1.next] c.next).quads := by
    refine Array.ext_getElem? fun i => ?_
    simp only [getElem?_patch, getElem?_push, mem_singleton]
    split <;> rfl
  have hgrows : Grows env lo (c.mark c.next)
      (c1.push ⟨.jump, none, none, some (.target c.next)⟩) l := by
    refine hpatched.extend ⟨fun n ty hn => ?_, fun n _ => ?_⟩ hquads fun t => ?_
    · rwa [temps_patch] at hn
    · rw [cell?_patch]
      rfl
    · rw [isTarget_patch, isTarget_push, isTarget_push]
      exact ⟨.inl, Or.rec id fun ht => ht.1 ▸ hmarked⟩
  refine { hgrows with ext := ⟨hgrows.ext.temps, hgrows.ext.cell?⟩, isTarget := fun t => ?_ }
  -- the mark on the first quad is accounted for by the jump back to it
  have hjump : (c1.push ⟨.jump, none, none, some (.target c.next)⟩).JumpsTo c1.next c.next :=
    ⟨_, getElem?_push_next, .inl rfl, rfl⟩
  rw [hgrows.isTarget, isTarget_mark]
  constructor
  · rintro ((rfl | ht) | ht)
    · exact .inr ⟨c1.next, hle, hjump⟩
    · exact .inl ht
    · exact .inr ht
  · rintro (ht | ht)
    · exact .inl (.inr ht)
    · exact .inr ht

end Grows

end Code

end BlockLang
