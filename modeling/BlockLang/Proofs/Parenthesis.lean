import BlockLang.Proofs.Grammar.Complete

/-!
# Parentheses in conditions

A parenthesis in a condition opens a condition or the first operand of a comparison. At most
one of the two readings succeeds, so it does not matter which is tried first. If an operator
follows a condition in parentheses, the other reading fails as well.
-/

namespace BlockLang

open Grammar Parse

namespace Phrase

variable {l r : Lexemes} {α : Type} {x : Phrase Completed α} {a : α}

theorem toOption_of_gives (h : Gives (x l) (a, r)) (notes : Completed) :
    (x l notes).1.toOption = some (a, r) := by
  obtain ⟨notes', hrun⟩ := h notes
  rw [hrun]
  rfl

/-- A reader that gives nothing is refused. -/
theorem exists_error (h : Leads x l fun _ _ => False) (notes : Completed) :
    ∃ e notes', x l notes = (.error e, notes') := by
  rcases hrun : x l notes with ⟨e | ⟨a, r⟩, notes'⟩
  · exact ⟨e, notes', rfl⟩
  · exact (h a r ⟨notes, notes', hrun⟩).elim

/-- What is read as a comparison starts with an expression. -/
theorem comparison_starts (l : Lexemes) :
    Leads comparison l fun _ _ => ∃ w v e, l.items = w ++ v ∧ Expression w e := by
  refine leads_bind leads_location ?_
  rintro x _ ⟨-, rfl⟩
  rename_i l
  refine leads_bind (expression_leads l) ?_
  rintro e m ⟨w, hw, he⟩
  exact fun _ _ _ => ⟨w, m.items, e, hw, he⟩

/-- What starts with an expression in parentheses is no condition in parentheses. -/
theorem groupedCondition_leads_false (hl : l.next.token = .symbol .leftParen)
    (h : ∃ w v e, l.items = w ++ v ∧ Expression w e) :
    Leads (groupedCondition negation) l fun _ _ => False := by
  obtain ⟨w, v, e, hw, he⟩ := h
  have hgroup := startsWithGroup_expression he
  obtain ⟨⟨t, y⟩, w', rfl, -⟩ := starts_expression he
  have ht : t = .symbol .leftParen := by rwa [Lexemes.next_eq_of_items hw] at hl
  subst ht
  obtain ⟨u, y', u', e', rfl, he'⟩ := hgroup y w' rfl
  have hitems : l.items = ⟨.symbol .leftParen, y⟩ ::
      (u ++ ⟨.symbol .rightParen, y'⟩ :: (u' ++ v)) := by rw [hw]; simp
  exact groupedCondition_refuses (negation_complete _).2 he' (Nat.lt_succ_self _) hitems

/-- Reading a condition in parentheses comes to the same end in every run. -/
theorem groupedCondition_gives_of_returns {o : Option Expr}
    (h : Returns (groupedCondition negation l) (o, r)) :
    Gives (groupedCondition negation l) (o, r) := by
  obtain ⟨e, ⟨w, hw, he⟩, rfl⟩ := groupedCondition_leads l o r h
  obtain ⟨r', -, hgives⟩ := groupedCondition_accepts (negation_complete _).1 he
    (Nat.lt_succ_self _) l hw
  rwa [← hgives.eq_of_returns h] at hgives

/-- A negation that tries a comparison before a condition in parentheses. -/
def comparingFirst : Phrase Completed Expr := do
  let l ← location
  match ← attempt (do return some (← comparison)) with
  | some e => return e
  | none =>
      match ← attempt (groupedCondition negation) with
      | some inner => newExpr (.group inner) l
      | none => fail .expression

section LeftParen

variable {e : Expr}

/-- A comparison is given in either order. -/
theorem gives_of_comparison (hl : l.next.token = .symbol .leftParen)
    (h : Gives (comparison l) (e, r)) :
    Gives (negation l) (e, r) ∧ Gives (comparingFirst l) (e, r) := by
  obtain ⟨notes', hrun⟩ := h []
  have hgroup := groupedCondition_leads_false hl (comparison_starts l e r ⟨[], notes', hrun⟩)
  constructor
  · rw [negation_eq]
    refine gives_bind gives_location (gives_bind gives_peek ?_)
    rw [hl]
    exact gives_bind (gives_attempt_none (hgroup.imp fun _ _ => False.elim)) h
  · refine gives_bind gives_location ?_
    exact gives_bind (gives_attempt (gives_bind h gives_pure)) gives_pure

/-- A condition in parentheses is given in either order. -/
theorem gives_of_groupedCondition (hl : l.next.token = .symbol .leftParen)
    (h : Gives (groupedCondition negation l) (some e, r))
    (hcomparison : Leads comparison l fun _ _ => False) :
    Gives (negation l) (.group l.next.location e, r) ∧
      Gives (comparingFirst l) (.group l.next.location e, r) := by
  have hnone : Leads (do return some (← comparison)) l fun o _ => o = none :=
    leads_bind hcomparison fun _ _ => False.elim
  constructor
  · rw [negation_eq]
    refine gives_bind gives_location (gives_bind gives_peek ?_)
    rw [hl]
    exact gives_bind (gives_attempt h) gives_newExpr
  · refine gives_bind gives_location (gives_bind (gives_attempt_none hnone) ?_)
    exact gives_bind (gives_attempt h) gives_newExpr

/-- Without a comparison and a condition in parentheses nothing is given in either order. -/
theorem leads_false_of_neither (hl : l.next.token = .symbol .leftParen)
    (hgroup : Leads (groupedCondition negation) l fun o _ => o = none)
    (hcomparison : Leads comparison l fun _ _ => False) :
    (Leads negation l fun _ _ => False) ∧ Leads comparingFirst l fun _ _ => False := by
  have hnone : Leads (do return some (← comparison)) l fun o _ => o = none :=
    leads_bind hcomparison fun _ _ => False.elim
  constructor
  · rw [negation_eq]
    refine leads_bind leads_location ?_
    rintro _ _ ⟨-, rfl⟩
    refine leads_bind leads_peek ?_
    rintro _ _ ⟨rfl, rfl⟩
    rw [hl]
    refine leads_bind (leads_of_gives (gives_attempt_none hgroup)) ?_
    rintro _ _ ⟨rfl, rfl⟩
    exact hcomparison
  · refine leads_bind leads_location ?_
    rintro _ _ ⟨-, rfl⟩
    refine leads_bind (leads_of_gives (gives_attempt_none hnone)) ?_
    rintro _ _ ⟨rfl, rfl⟩
    refine leads_bind (leads_of_gives (gives_attempt_none hgroup)) ?_
    rintro _ _ ⟨rfl, rfl⟩
    exact leads_fail

end LeftParen

end Phrase

open Phrase

/-- At a parenthesis, a condition with its closing parenthesis and a comparison are not both
read. So it does not matter which is tried first, and if an operator follows a condition in
parentheses, nothing is read. -/
theorem parenthesis_readings_exclusive (l : Lexemes) (hl : l.next.token = .symbol .leftParen) :
    (∀ o r e r', Returns (groupedCondition negation l) (o, r) →
      ¬ Returns (comparison l) (e, r')) ∧
    (∀ notes : Completed,
      (negation l notes).1.toOption = (comparingFirst l notes).1.toOption) ∧
    ∀ r, Returns (groupedCondition negation l) (none, r) →
      ∀ notes : Completed, (∃ e notes', comparison l notes = (.error e, notes')) ∧
        ∃ e notes', negation l notes = (.error e, notes') := by
  have hexclusive : ∀ o r e r', Returns (groupedCondition negation l) (o, r) →
      ¬ Returns (comparison l) (e, r') := fun o r e r' hgroup hcomparison =>
    groupedCondition_leads_false hl (comparison_starts l e r' hcomparison) o r hgroup
  refine ⟨hexclusive, fun notes => ?_, fun r hr notes => ?_⟩
  · by_cases hcomparison : ∃ e r, Returns (comparison l) (e, r)
    · obtain ⟨e, r, hreturns⟩ := hcomparison
      have hgives := gives_of_returns (eq_of_single (.expr .condition) fun _ h => h)
        (comparison_agrees _ l (Nat.lt_succ_self _)) hreturns
      obtain ⟨hfirst, hsecond⟩ := gives_of_comparison hl hgives
      rw [toOption_of_gives hfirst, toOption_of_gives hsecond]
    · have hrefused : Leads comparison l fun _ _ => False :=
        fun e r h => hcomparison ⟨e, r, h⟩
      by_cases hgroup : ∃ e r, Returns (groupedCondition negation l) (some e, r)
      · obtain ⟨e, r, hreturns⟩ := hgroup
        obtain ⟨hfirst, hsecond⟩ := gives_of_groupedCondition hl
          (groupedCondition_gives_of_returns hreturns) hrefused
        rw [toOption_of_gives hfirst, toOption_of_gives hsecond]
      · have hnone : Leads (groupedCondition negation) l fun o _ => o = none := by
          rintro (_ | e) r h
          · rfl
          · exact absurd ⟨e, r, h⟩ hgroup
        obtain ⟨hfirst, hsecond⟩ := leads_false_of_neither hl hnone hrefused
        obtain ⟨e, n, hrun⟩ := exists_error hfirst notes
        obtain ⟨e', n', hrun'⟩ := exists_error hsecond notes
        rw [hrun, hrun']
        rfl
  · have hrefused : Leads comparison l fun _ _ => False := fun e r' => hexclusive none r e r' hr
    have hnone : Leads (groupedCondition negation) l fun o _ => o = none := by
      intro o r' h
      exact congrArg Prod.fst ((groupedCondition_gives_of_returns hr).eq_of_returns h)
    exact ⟨exists_error hrefused notes,
      exists_error (leads_false_of_neither hl hnone hrefused).1 notes⟩

/-- A condition in parentheses in front of an operator. -/
def conditionPlus : Lexemes :=
  .start ([.symbol .leftParen, .int 1, .symbol .less, .int 2, .symbol .rightParen, .symbol .plus,
    .int 3, .eof].map fun t => ⟨t, .start⟩)

theorem parenthesis_readings_exclusive_conditionPlus :
    conditionPlus.next.token = .symbol .leftParen ∧
    ∃ e notes, negation conditionPlus ([] : Completed) = (.error e, notes) := by
  have hrejected : ((groupedCondition negation conditionPlus ([] : Completed)).1.toOption.map
      fun read => read.1.isNone) = some true := by decide +kernel
  refine ⟨rfl, ?_⟩
  rcases hrun : groupedCondition negation conditionPlus ([] : Completed) with
    ⟨_ | ⟨_ | e, r⟩, notes⟩
  · rw [hrun] at hrejected
    cases hrejected
  · exact ((parenthesis_readings_exclusive conditionPlus rfl).2.2 r ⟨[], notes, hrun⟩ []).2
  · rw [hrun] at hrejected
    cases hrejected

end BlockLang
