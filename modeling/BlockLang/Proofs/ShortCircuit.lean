import BlockLang.Proofs.Code.Continuation
import BlockLang.Proofs.Emit.Growth

/-!
# Conditions are evaluated as far as they are needed

The comparisons of a condition are decided from left to right, and only those on which its truth
still depends. In the code control passes through the quads of exactly these comparisons, and
leaves through a jump that says whether the condition holds.
-/

namespace BlockLang

open Code BlockLang.Expr List Progress

variable {exits : Exits} {left right : Expr} {ms ns : List Nat} {p p' : Progress}

/-! ### Conditions with numbered comparisons

The comparisons of a condition are numbered by a list, from left to right. -/

namespace Expr

/-- The relations of a condition, from left to right. -/
def relations : Expr → List Relation
  | group _ inner => inner.relations
  | not _ operand => operand.relations
  | logic _ _ left right => left.relations ++ right.relations
  | compare _ relation _ _ => [relation]
  | _ => []

/-- The numbers of the comparisons on the left side of a connective. -/
def numbersLeft (left : Expr) (ns : List Nat) : List Nat := ns.take left.relations.length

/-- The numbers of the comparisons on the right side of a connective. -/
def numbersRight (left : Expr) (ns : List Nat) : List Nat := ns.drop left.relations.length

variable (outcome : Nat → Bool)

/-- Whether a condition holds. -/
def truth : Expr → List Nat → Bool
  | group _ inner, ns => inner.truth ns
  | not _ operand, ns => !operand.truth ns
  | logic _ .and left right, ns =>
      left.truth (left.numbersLeft ns) && right.truth (left.numbersRight ns)
  | logic _ .or left right, ns =>
      left.truth (left.numbersLeft ns) || right.truth (left.numbersRight ns)
  | compare .., n :: _ => outcome n
  | _, _ => false

/-- The comparisons that are decided one after the other. The right side of a connective
is left out when the left side has settled the matter. -/
def evaluated : Expr → List Nat → List Nat
  | group _ inner, ns => inner.evaluated ns
  | not _ operand, ns => operand.evaluated ns
  | logic _ .and left right, ns =>
      left.evaluated (left.numbersLeft ns) ++
        if left.truth outcome (left.numbersLeft ns) then right.evaluated (left.numbersRight ns)
        else []
  | logic _ .or left right, ns =>
      left.evaluated (left.numbersLeft ns) ++
        if left.truth outcome (left.numbersLeft ns) then []
        else right.evaluated (left.numbersRight ns)
  | compare .., n :: _ => [n]
  | _, _ => []

theorem truth_logic (l : Location) (k : Connective) (left right : Expr) (ns : List Nat) :
    (logic l k left right).truth outcome ns =
      if left.truth outcome (left.numbersLeft ns) = k.settles then k.settles
      else right.truth outcome (left.numbersRight ns) := by
  cases k <;> cases h : left.truth outcome (left.numbersLeft ns) <;>
    simp [truth, h, Connective.settles]

theorem evaluated_logic (l : Location) (k : Connective) (left right : Expr) (ns : List Nat) :
    (logic l k left right).evaluated outcome ns = left.evaluated outcome (left.numbersLeft ns) ++
      if left.truth outcome (left.numbersLeft ns) = k.settles then []
      else right.evaluated outcome (left.numbersRight ns) := by
  cases k <;> cases h : left.truth outcome (left.numbersLeft ns) <;>
    simp [evaluated, h, Connective.settles]

/-- Comparisons are decided from left to right, and none of them twice. -/
theorem evaluated_sublist : ∀ (e : Expr) (ns : List Nat), (e.evaluated outcome ns).Sublist ns
  | group _ inner, ns => by
    rw [evaluated]
    exact evaluated_sublist inner ns
  | not _ operand, ns => by
    rw [evaluated]
    exact evaluated_sublist operand ns
  | logic _ _ left right, ns => by
    have h := (evaluated_sublist left (left.numbersLeft ns)).append
      (evaluated_sublist right (left.numbersRight ns))
    rw [numbersLeft, numbersRight, take_append_drop] at h
    rw [evaluated_logic]
    split
    · rw [append_nil]
      exact (sublist_append_left _ _).trans h
    · exact h
  | compare .., n :: ns => singleton_sublist.mpr mem_cons_self
  | compare .., [] => .slnil
  | name .., ns | int .., ns | char .., ns | string .., ns | index .., ns | call .., ns
  | arith .., ns | sign .., ns | missing _, ns => nil_sublist ns

theorem numbersLeft_append (h : ns.length = left.relations.length) :
    left.numbersLeft (ns ++ ms) = ns := by
  rw [numbersLeft, take_left' h]

theorem numbersRight_append (h : ns.length = left.relations.length) :
    left.numbersRight (ns ++ ms) = ms := by
  rw [numbersRight, drop_left' h]

end Expr

/-! ### Comparisons in code that is continued -/

namespace Code

variable {c c1 c' : Code} {outcome : Nat → Bool} {i : Nat} {q : Quad}

/-- A quad keeps its operation. -/
theorem Continues.op (h : c.Continues c') (hq : c.quads[i]? = some q) :
    ∃ q', c'.quads[i]? = some q' ∧ q'.op = q.op := by
  obtain hq' | ⟨-, t, hq'⟩ := h.quad i q hq
  · exact ⟨q, hq', rfl⟩
  · exact ⟨_, hq', rfl⟩

theorem follow?_of_isStraight (hq : c.quads[i]? = some q) (h : q.op.IsStraight) :
    c.follow? outcome i = some (i + 1) := by
  rw [follow?, hq, Option.bind_some]
  obtain hop | ⟨operator, hop⟩ | hop | hop := h.cases <;> simp only [hop]

theorem relation?_of_isStraight (hq : c.quads[i]? = some q) (h : q.op.IsStraight) :
    c.relation? i = none := by
  rw [relation?_of_getElem? hq]
  obtain hop | ⟨operator, hop⟩ | hop | hop := h.cases <;> simp only [hop]

/-- The quads of expressions in code that is continued. -/
theorem Lengthens.quad (h : c.Lengthens c1) (hC : c1.Continues c') (hi : c.next ≤ i)
    (hi' : i < c1.next) : ∃ q, c'.quads[i]? = some q ∧ q.op.IsStraight := by
  have hq := Array.getElem?_eq_getElem hi'
  obtain ⟨q', hq', hop⟩ := hC.op hq
  exact ⟨q', hq', hop ▸ h.isStraight hi hq⟩

/-- Control passes through the quads of expressions. -/
theorem Lengthens.walk (h : c.Lengthens c1) (hC : c1.Continues c') :
    c'.Walk outcome c.next (range' c.next (c1.next - c.next)) c1.next := by
  have hlength : c.next + (c1.next - c.next) = c1.next := Nat.add_sub_cancel' h.next_le
  have hwalk : c'.Walk outcome c.next (range' c.next (c1.next - c.next))
      (c.next + (c1.next - c.next)) := by
    refine Walk.straight fun m hm hm' => ?_
    obtain ⟨q, hq, hop⟩ := h.quad hC hm (by omega)
    exact follow?_of_isStraight hq hop
  rwa [hlength] at hwalk

theorem Lengthens.comparisonsIn (h : c.Lengthens c1) (hC : c1.Continues c') :
    c'.comparisonsIn c.next c1.next = [] := by
  refine comparisonsIn_eq_nil fun m hm hm' => ?_
  obtain ⟨q, hq, hop⟩ := h.quad hC hm hm'
  exact relation?_of_isStraight hq hop

end Code

namespace Exits

variable {a b : Exits} {k : Connective} {i : Nat}

theorem mem_join_left (h : i ∈ a.when k.settles) : i ∈ (a.join k b).when k.settles := by
  cases k <;> exact mem_append_left _ h

theorem mem_join_right {answer : Bool} (h : i ∈ b.when answer) : i ∈ (a.join k b).when answer := by
  cases k <;> cases answer
  · exact mem_append_right _ h
  · exact h
  · exact h
  · exact mem_append_right _ h

end Exits

namespace Emit

variable {c : Code}

/-! ### The way through a condition -/

/-- The quads of a comparison: those of its operands, the comparison itself, and the jump
that is reached if the relation does not hold. -/
theorem condition_compare_quads {l : Location} {relation : Relation}
    (h : condition (.compare l relation left right) p = .ok exits p') (hC : p'.code.Continues c) :
    ∃ n, exits = ⟨[n], [n + 1]⟩ ∧ c.comparisonsIn p.code.next n = [] ∧
      c.comparisonsIn p.code.next p'.code.next = [n] ∧ c.relation? n = some relation ∧
      c.relation? (n + 1) = none ∧
      (∀ outcome, c.Walk outcome p.code.next (range' p.code.next (n - p.code.next)) n) ∧
      (∃ q, c.quads[n]? = some q ∧ q.op = .compare relation) ∧
      ∃ q, c.quads[n + 1]? = some q ∧ q.op = .jump := by
  obtain ⟨a, p1, b, p2, ha, hb, hcompare⟩ := condition_compare_ok h
  obtain ⟨-, -, -, rfl, rfl⟩ := comparison_ok hcompare
  have hcode := (expression_lengthens left ha).trans (expression_lengthens right hb)
  have hC1 := (Continues.push _ jumpQuad).trans hC
  have hC2 := (Continues.push p2.code _).trans hC1
  obtain ⟨q, hq, hop⟩ := hC1.op (getElem?_push_next (c := p2.code))
  obtain ⟨r, hr, hop'⟩ := hC.op (getElem?_push_next (q := jumpQuad))
  rw [appended_code, next_push] at hr
  have hn : c.relation? p2.code.next = some relation := by rw [relation?_of_getElem? hq, hop]; rfl
  have hn' : c.relation? (p2.code.next + 1) = none := by rw [relation?_of_getElem? hr, hop']; rfl
  have hnone := hcode.comparisonsIn hC2
  refine ⟨p2.code.next, rfl, hnone, ?_, hn, hn', fun _ => hcode.walk hC2, ⟨q, hq, hop⟩, r, hr, hop'⟩
  rw [appended_code, next_push, appended_code, next_push,
    comparisonsIn_append hcode.next_le (Nat.le_add_right _ 2), hnone]
  simp [comparisonsIn, range', isComparison, hn, hn']

/-- The code of the left side of a connective is continued by that of the right side, in
front of which the exits that settle nothing are led to it. -/
theorem condition_sides {p1 : Progress} {a b : Exits} {answer : Bool}
    (ha : condition left p = .ok a p1)
    (hb : condition right (p1.withCode (p1.code.patch (a.when answer) p1.code.next)) = .ok b p')
    (hC : p'.code.Continues c) :
    p1.code.Continues c ∧ c.Leads (a.when answer) p1.code.next ∧ p.code.next ≤ p1.code.next ∧
      p1.code.next ≤ p'.code.next := by
  have e1 := condition_emits left (Nat.zero_le _) ha
  have e2 := condition_emits right (Nat.zero_le _) hb
  have hl := a.when_subset answer
  have hC1 := e2.grows.continues.trans hC
  have hnext := e2.grows.next_le
  rw [withCode_code, next_patch] at hnext
  exact ⟨(e1.grows.continues_patch hl _).trans hC1, hC1.leads (e1.grows.leads_patch hl _),
    e1.grows.next_le, hnext⟩

/-- The comparisons in the code of a condition are those of the condition, in order. -/
theorem condition_relations {e : Expr} (h : condition e p = .ok exits p')
    (hC : p'.code.Continues c) :
    (c.comparisonsIn p.code.next p'.code.next).map c.relation? = e.relations.map some := by
  induction h using condition_induction with
  | group ih => exact ih hC
  | not ih => exact ih hC
  | logic ha hb ihleft ihright =>
    obtain ⟨hC1, -, hle, hle'⟩ := condition_sides ha hb hC
    have hright := ihright hC
    rw [withCode_code, next_patch] at hright
    rw [comparisonsIn_append hle hle', map_append, ihleft hC1, hright, relations,
      map_append]
  | @compare _ relation _ _ _ _ _ h =>
    obtain ⟨n, -, -, hcomparisons, hn, -⟩ := condition_compare_quads h hC
    rw [hcomparisons]
    simp [hn, relations]

theorem length_comparisonsIn {e : Expr} (h : condition e p = .ok exits p')
    (hC : p'.code.Continues c) :
    (c.comparisonsIn p.code.next p'.code.next).length = e.relations.length := by
  simpa using congrArg length (condition_relations h hC)

/-- Control goes from the first quad of a condition to a jump that tells whether it holds. On
this way it passes through the comparisons that are evaluated. The code may be continued in
any way, so that the jump may have been led somewhere. -/
theorem condition_walk (outcome : Nat → Bool) {e : Expr} (h : condition e p = .ok exits p')
    (hC : p'.code.Continues c) :
    ∃ path k, c.Walk outcome p.code.next path k ∧ c.Takes outcome k ∧
      k ∈ exits.when (e.truth outcome (c.comparisonsIn p.code.next p'.code.next)) ∧
      (path ++ [k]).filter c.isComparison =
        e.evaluated outcome (c.comparisonsIn p.code.next p'.code.next) := by
  induction h using condition_induction with
  | group ih =>
    simp only [truth, evaluated]
    exact ih hC
  | @not _ e p _ p' _ _ ih =>
    obtain ⟨path, k, hwalk, htakes, hk, htrace⟩ := ih hC
    refine ⟨path, k, hwalk, htakes, ?_, by rw [htrace, evaluated]⟩
    rw [truth]
    cases htruth : e.truth outcome (c.comparisonsIn p.code.next p'.code.next) <;>
      rw [htruth] at hk <;> exact hk
  | @logic _ connective left _ p _ p1 _ _ ha hb _ ihleft ihright =>
    obtain ⟨hC1, hleads, hle, hle'⟩ := condition_sides ha hb hC
    obtain ⟨path, k, hwalk, htakes, hk, htrace⟩ := ihleft hC1
    have hlength := length_comparisonsIn ha hC1
    rw [comparisonsIn_append hle hle', truth_logic, evaluated_logic,
      numbersLeft_append hlength, numbersRight_append hlength]
    by_cases htruth : left.truth outcome (c.comparisonsIn p.code.next p1.code.next) =
      connective.settles
    · rw [htruth] at hk
      refine ⟨path, k, hwalk, htakes, ?_, by rw [htrace, if_pos htruth, append_nil]⟩
      rw [if_pos htruth]
      exact Exits.mem_join_left hk
    · -- what does not settle the matter on the left leads to the right side
      rw [Bool.eq_not.mpr htruth] at hk
      have hstep := hwalk.step (follow?_of_leads htakes hleads hk)
      obtain ⟨path', k', hwalk', htakes', hk', htrace'⟩ := ihright hC
      rw [withCode_code, next_patch] at hwalk' hk' htrace'
      rw [if_neg htruth, if_neg htruth]
      refine ⟨path ++ [k] ++ path', k', hstep.trans hwalk', htakes', Exits.mem_join_right hk', ?_⟩
      rw [append_assoc, filter_append, htrace, htrace']
  | @compare _ relation _ _ p _ p' h =>
    obtain ⟨n, rfl, hnone, hcomparisons, hn, hn', hwalk, ⟨q, hq, hop⟩, r, hr, hop'⟩ :=
      condition_compare_quads h hC
    have hpath : (range' p.code.next (n - p.code.next)).filter c.isComparison = [] := hnone
    rw [hcomparisons, truth, evaluated]
    cases houtcome : outcome n with
    | true =>
      refine ⟨_, n, hwalk outcome, ⟨q, hq, .inr ⟨⟨relation, hop⟩, houtcome⟩⟩,
        mem_singleton_self n, ?_⟩
      rw [filter_append, hpath]
      simp [isComparison, hn]
    | false =>
      have hfollow : c.follow? outcome n = some (n + 1) := by
        simp [follow?, hq, hop, houtcome]
      refine ⟨_, n + 1, (hwalk outcome).step hfollow, ⟨r, hr, .inl hop'⟩,
        mem_singleton_self _, ?_⟩
      rw [append_assoc, filter_append, hpath]
      simp [isComparison, hn, hn']

/-- Control that enters the code of a condition leaves it in one way, whatever the outcomes of
the comparisons are. It passes through the comparisons that evaluation from left to right
decides, once and in order, and leaves through one of the jumps for the truth of the condition
and none of those for the contrary. A negation has the code of what it negates. -/
theorem short_circuit {e : Expr} {p p' : Progress} {exits : Exits}
    (h : condition e p = .ok exits p') :
    let c := p'.code
    let ns := c.comparisonsIn p.code.next c.next
    ns.map c.relation? = e.relations.map some ∧
      (∀ outcome, ∃ path k,
        (∀ path' k', c.Walk outcome p.code.next path' k' ∧ c.follow? outcome k' = none ↔
          path' = path ∧ k' = k) ∧
        (path ++ [k]).filter c.isComparison = e.evaluated outcome ns ∧
        (e.evaluated outcome ns).Pairwise (· < ·) ∧
        k ∈ exits.when (e.truth outcome ns) ∧ k ∉ exits.when (!e.truth outcome ns)) ∧
      ∀ l, condition (.not l e) p = .ok ⟨exits.whenFalse, exits.whenTrue⟩ p' := by
  have hgrows := (condition_emits e (Nat.zero_le _) h).grows
  refine ⟨condition_relations h (.refl _), fun outcome => ?_, fun l => ?_⟩
  · obtain ⟨path, k, hwalk, htakes, hk, htrace⟩ := condition_walk outcome h (.refl _)
    obtain ⟨-, -, hdisjoint⟩ := nodup_append.mp hgrows.nodup
    have hpending : k ∈ exits.whenTrue ++ exits.whenFalse := exits.when_subset _ hk
    have hleaves := Code.follow?_of_isPending htakes ((hgrows.mem_iff k).mp hpending).2
    refine ⟨path, k, fun path' k' => ⟨?_, ?_⟩, htrace, ?_, hk, ?_⟩
    · rintro ⟨hwalk', hleaves'⟩
      exact hwalk.unique hleaves hwalk' hleaves'
    · rintro ⟨rfl, rfl⟩
      exact ⟨hwalk, hleaves⟩
    · exact (Code.pairwise_comparisonsIn _ _).sublist (Expr.evaluated_sublist outcome e _)
    · revert hk
      cases e.truth outcome (p'.code.comparisonsIn p.code.next p'.code.next)
      · exact fun hfalse htrue => hdisjoint k htrue k hfalse rfl
      · exact fun htrue hfalse => hdisjoint k htrue k hfalse rfl
  · rw [condition, bind_of_ok h]
    rfl

/-- A negated disjunction in front of another comparison. -/
def guardedComparison : Expr :=
  .logic .start .and
    (.not .start (.group .start (.logic .start .or
      (.compare .start .less (.int .start 1) (.int .start 2))
      (.compare .start .equal (.int .start 3) (.int .start 4)))))
    (.compare .start .greater (.int .start 5) (.int .start 6))

/-- If the second comparison holds the third one is not decided, and the condition fails. -/
theorem short_circuit_guardedComparison :
    ∃ exits p' path k, condition guardedComparison {} = .ok exits p' ∧
      p'.code.Walk (· == 2) 0 path k ∧ (path ++ [k]).filter p'.code.isComparison = [0, 2] ∧
      k ∈ exits.whenFalse ∧ k ∉ exits.whenTrue := by
  have hok : (match condition guardedComparison {} with
      | .ok _ p => p.code.comparisonsIn 0 p.code.next
      | .error _ _ => []) = [0, 2, 4] := by decide +kernel
  split at hok
  case h_1 exits p' h =>
    obtain ⟨-, hwalks, -⟩ := short_circuit h
    obtain ⟨path, k, hwalk, htrace, -, hk, hk'⟩ := hwalks (· == 2)
    have hns : p'.code.comparisonsIn ({} : Progress).code.next p'.code.next = [0, 2, 4] := hok
    rw [hns] at htrace hk hk'
    exact ⟨exits, p', path, k, h, ((hwalk path k).mpr ⟨rfl, rfl⟩).1, htrace, hk, hk'⟩
  case h_2 => cases hok

end Emit

end BlockLang
