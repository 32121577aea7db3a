import BlockLang.Proofs.Code.Growth

/-!
# Complete code

Code is complete when all its functions are: no jump is pending, every jump stays
in its function, and the quads that are marked as targets are those to which a
jump leads. Code stays complete when a function is added whose body has no
pending jumps.
-/

namespace BlockLang

namespace Quad

def start (label : FunctionLabel) : Quad := ⟨.unit, some (.function label), none, none⟩

def finish (label : FunctionLabel) : Quad := ⟨.endUnit, some (.function label), none, none⟩

end Quad

namespace Code

variable {c c1 : Code} {i t first last : Nat}

/-- A function stands between two quads: one that starts it and the next one that
ends a function, which is its own end. -/
def IsFunction (c : Code) (first last : Nat) : Prop :=
  first < last ∧ (∃ label, c.quads[first]? = some (.start label) ∧
    c.quads[last]? = some (.finish label)) ∧
    ∀ i q, first < i → i < last → c.quads[i]? = some q → q.op ≠ .unit ∧ q.op ≠ .endUnit

/-- The jumps of all functions have been led to their targets. -/
structure Complete (c : Code) : Prop where
  not_pending : ∀ i, ¬ c.IsPending i
  inside : ∀ i t, c.JumpsTo i t →
    ∃ first last, c.IsFunction first last ∧ first < i ∧ i < last ∧ first < t ∧ t ≤ last
  isTarget_iff : ∀ t, c.isTarget t ↔ ∃ i, c.JumpsTo i t

theorem complete_empty : ({} : Code).Complete where
  not_pending _ h := absurd h.lt_next (Nat.not_lt_zero _)
  inside _ _ h := absurd h.lt_next (Nat.not_lt_zero _)
  isTarget_iff t := by
    simp only [isTarget, List.contains_nil, Bool.false_eq_true, false_iff, not_exists]
    exact fun i h => absurd h.lt_next (Nat.not_lt_zero _)

/-- A function is not changed by quads after it. -/
theorem IsFunction.of_below (h : c.IsFunction first last)
    (hc : ∀ i, i < c.next → c1.quads[i]? = c.quads[i]?) : c1.IsFunction first last := by
  obtain ⟨hlt, ⟨label, hfirst, hlast⟩, hbody⟩ := h
  have hnext := lt_next_of_getElem? hlast
  refine ⟨hlt, ⟨label, ?_, ?_⟩, fun i q hi hi' hq => hbody i q hi hi' ?_⟩
  · rw [hc first (Nat.lt_trans hlt hnext), hfirst]
  · rw [hc last hnext, hlast]
  · rw [← hc i (Nat.lt_trans hi' hnext), hq]

/-! ### The quads of a function -/

section Function

variable {env : Environment} {lo : Nat} {label : FunctionLabel} {q : Quad}

variable (h : (c.push (.start label)).Grows env lo c1 []) (hi : c.next ≤ i)
  (hq : (c1.push (.finish label)).quads[i]? = some q)

include h hi hq

/-- A quad of a function is its start, its end, or stands in its body. -/
theorem Grows.function_cases :
    q = .start label ∨ q = .finish label ∨
      (c.push (.start label)).next ≤ i ∧ c1.quads[i]? = some q := by
  have hle : (c.push (.start label)).next ≤ c1.next := h.next_le
  rw [next_push] at hle ⊢
  by_cases hlt : i < c1.next
  · rw [getElem?_push_of_lt hlt] at hq
    by_cases hfirst : i = c.next
    · rw [hfirst, h.below _ (by simp), getElem?_push_next] at hq
      exact .inl (Option.some.inj hq).symm
    · exact .inr (.inr ⟨by omega, hq⟩)
  · exact .inr (.inl (eq_of_getElem?_push (Nat.le_of_not_lt hlt) hq).2)

/-- The quads of a function are well formed, and none of them is pending. -/
theorem Grows.function_wellFormed :
    q.WellFormed env (c1.push (.finish label)) lo ∧ q.output ≠ some .pending := by
  obtain rfl | rfl | ⟨hi, hq⟩ := h.function_cases hi hq
  · exact ⟨rfl, nofun⟩
  · exact ⟨rfl, nofun⟩
  · have hext : c1.Extends (c1.push (.finish label)) := ⟨fun _ _ h => h, fun _ _ => rfl⟩
    refine ⟨(h.wellFormed i q hi hq).1.mono hext, fun ho => ?_⟩
    cases (h.mem_iff i).mpr ⟨hi, q, hq, ho⟩

/-- The arguments of a call in a function stand right in front of it. -/
theorem Grows.function_calls (hop : q.op = .par) :
    ∃ r, (c1.push (.finish label)).quads[i + 1]? = some r ∧ (r.op = .par ∨ r.op = .call) := by
  obtain rfl | rfl | ⟨hi, hq⟩ := h.function_cases hi hq
  · cases hop
  · cases hop
  · obtain ⟨r, hr, hrop⟩ := h.calls i q hi hq hop
    exact ⟨r, (getElem?_push_of_lt (lt_next_of_getElem? hr)).trans hr, hrop⟩

omit hi hq in
/-- The start, the body and the end of a function. -/
theorem Grows.isFunction : (c1.push (.finish label)).IsFunction c.next c1.next := by
  have hle : c.next + 1 ≤ c1.next := by simpa using h.next_le
  refine ⟨hle, ⟨label, ?_, getElem?_push_next⟩, fun i q hi hi' hq => ?_⟩
  · rw [getElem?_push_of_lt hle, h.below _ (by simp), getElem?_push_next]
  · rw [getElem?_push_of_lt hi'] at hq
    exact (h.wellFormed i q (by rw [next_push]; omega) hq).2

end Function

namespace Complete

variable {env : Environment} {lo : Nat}

/-- Complete code stays complete when a function is appended whose body has no
pending jumps. -/
theorem function (hc : c.Complete) (label : FunctionLabel)
    (h : (c.push (.start label)).Grows env lo c1 []) : (c1.push (.finish label)).Complete := by
  have hle : c.next + 1 ≤ c1.next := by simpa using h.next_le
  have hbelow : ∀ i, i < c.next → (c1.push (.finish label)).quads[i]? = c.quads[i]? :=
    fun i hi => by
      rw [getElem?_push_of_lt (by omega), h.below i (by rw [next_push]; omega),
        getElem?_push_of_lt hi]
  have hfirst : c1.quads[c.next]? = some (.start label) := by
    rw [h.below _ (by simp), getElem?_push_next]
  have hbody : ∀ i, i < c1.next → (c1.push (.finish label)).quads[i]? = c1.quads[i]? :=
    fun i hi => getElem?_push_of_lt hi
  -- A quad with a target or a pending jump is an old one or stands in the new body.
  have hcases : ∀ i q, (c1.push (.finish label)).quads[i]? = some q → q.HasTarget →
      i < c.next ∨ c.next < i ∧ i < c1.next := by
    intro i q hq ht
    by_contra hnot
    have hlt := lt_next_of_getElem? hq
    rw [next_push] at hlt
    obtain rfl | rfl : i = c.next ∨ i = c1.next := by omega
    · rw [hbody _ hle, hfirst] at hq
      cases hq
      rcases ht with ht | ⟨t, ht⟩ <;> cases ht
    · rw [getElem?_push_next] at hq
      cases hq
      rcases ht with ht | ⟨t, ht⟩ <;> cases ht
  exact {
    not_pending := fun i ⟨q, hq, ho⟩ => by
      rcases hcases i q hq (.inl ho) with hi | ⟨hi, hi'⟩
      · exact hc.not_pending i ⟨q, hbelow i hi ▸ hq, ho⟩
      · have hmem := (h.mem_iff i).mpr ⟨by rw [next_push]; omega, q, hbody i hi' ▸ hq, ho⟩
        cases hmem
    inside := fun i t ⟨q, hq, hop, ho⟩ => by
      -- the jumps of older functions stay there, those of the body stay in the new one
      rcases hcases i q hq (.inr ⟨t, ho⟩) with hi | ⟨hi, hi'⟩
      · obtain ⟨first, last, hf, hin⟩ := hc.inside i t ⟨q, hbelow i hi ▸ hq, hop, ho⟩
        exact ⟨first, last, hf.of_below hbelow, hin⟩
      · have htarget := h.target i t (by rw [next_push]; omega) ⟨q, hbody i hi' ▸ hq, hop, ho⟩
        rw [next_push] at htarget
        exact ⟨c.next, c1.next, h.isFunction, hi, hi', htarget.1, htarget.2⟩
    isTarget_iff := fun t => by
      rw [isTarget_push, h.isTarget, isTarget_push, hc.isTarget_iff]
      constructor
      · rintro (⟨i, hj⟩ | ⟨i, -, hj⟩)
        · exact ⟨i, (jumpsTo_congr (hbelow i hj.lt_next)).mpr hj⟩
        · exact ⟨i, (jumpsTo_congr (hbody i hj.lt_next)).mpr hj⟩
      · rintro ⟨i, q, hq, hop, ho⟩
        rcases hcases i q hq (.inr ⟨t, ho⟩) with hi | ⟨hi, hi'⟩
        · exact .inl ⟨i, q, hbelow i hi ▸ hq, hop, ho⟩
        · exact .inr ⟨i, by rw [next_push]; omega, q, hbody i hi' ▸ hq, hop, ho⟩ }

end Complete

end Code

end BlockLang
