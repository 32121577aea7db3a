import BlockLang.Proofs.Phrase.Coupled

/-!
# What is read is derived

The lexemes that a reader passes are a phrase of the kind that it reads, and what it gives is the
tree. So what the rules of the grammar respect holds of every tree that has been read.
-/

namespace BlockLang

open Coupling Decl Grammar List Parse

variable {w : List Lexeme}

namespace Phrase

/-- The lexemes that were passed are a phrase of a kind. -/
def Takes {α : Type} (K : List Lexeme → α → Prop) (l : Lexemes) (a : α) (r : Lexemes) : Prop :=
  ∃ w, l.items = w ++ r.items ∧ K w a

theorem leads_takes {α : Type} {x : Phrase Completed α} {K : List Lexeme → α → Prop} {l : Lexemes}
    {R : α → α → (trees .refl).Parts → Prop}
    (h : (trees .refl).Follows [] l [] x x (Reads R K)) : Leads x l (Takes K l) := by
  refine (leads_of_follows h).imp ?_
  rintro a r ⟨b, ps, v, ⟨-, hK⟩, hv⟩
  exact ⟨v, hv, hK⟩

theorem expression_leads (l : Lexemes) : Leads expression l (Takes Expression l) :=
  leads_takes (expression_agrees _ l (Nat.lt_succ_self _))

/-- A condition in parentheses is read. It is given if no operator follows. -/
theorem groupedCondition_leads (l : Lexemes) :
    Leads (groupedCondition negation) l fun o r => ∃ e,
      Takes (Between Condition (.symbol .leftParen) (.symbol .rightParen)) l e r ∧
        o = if r.next.token.isOperator then none else some e := by
  have h := groupedCondition_agrees (c := trees .refl) (negation_agrees _) l (Nat.lt_succ_self _)
  refine (leads_of_follows h).imp ?_
  rintro o r ⟨-, -, v, ⟨e, -, -, he, ho, -⟩, hv⟩
  exact ⟨e, ⟨v, hv, he⟩, ho⟩

/-- What is read as a program is a function in front of an end mark. -/
theorem program_leads (l : Lexemes) : Leads program l fun d r =>
    ∃ w, l.items = w ++ r.items ∧ Grammar.Function w d ∧ d.NearestElse ∧ r.next.token = .eof := by
  refine (leads_of_follows program_follows).imp ?_
  rintro d r ⟨-, -, v, ⟨⟨-, hd⟩, hnearest, heof⟩, hv⟩
  exact ⟨v, hv, hd, hnearest, heof⟩

end Phrase

/-- A tree that has been read is that of a function in front of an end mark. -/
theorem Grammar.Function.of_read {lexemes : List Lexeme} {tree : Decl}
    (h : (read lexemes).1 = .ok tree) :
    ∃ (w : List Lexeme) (r : Lexemes), closed lexemes = w ++ r.items ∧
      Grammar.Function w tree ∧ tree.NearestElse ∧ r.next.token = .eof := by
  unfold Decl.read at h
  rcases hread : Phrase.program (.start lexemes) ([] : Completed) with ⟨_ | ⟨d, r⟩, completed⟩
  · rw [hread] at h
    cases h
  · rw [hread] at h
    cases h
    obtain ⟨w, hw⟩ := Phrase.program_leads _ d r ⟨[], completed, hread⟩
    exact ⟨w, r, hw⟩

/-- A tree that has been read is derived by the grammar. -/
theorem Grammar.Program.of_read {items : List Lexeme} {x : Location} {tree : Decl}
    (hitems : ∀ y ∈ items, y.token ≠ .eof)
    (h : (read (items ++ [⟨.eof, x⟩])).1 = .ok tree) :
    Grammar.Program (items ++ [⟨.eof, x⟩]) tree ∧ tree.NearestElse := by
  obtain ⟨w, r, hw, hfunction, hnearest, heof⟩ := Grammar.Function.of_read h
  rw [show closed (items ++ [⟨.eof, x⟩]) = items ++ [⟨.eof, x⟩] by simp [closed]] at hw
  -- the end mark is not a part of the function, and no other one stands before it
  have hwitems : w = items := by
    rcases eq_nil_or_concat r.items with hnil | ⟨rs, last, hrs⟩
    · cases r.items_eq_cons.symm.trans hnil
    · rw [concat_eq_append] at hrs
      rw [hrs, ← append_assoc] at hw
      obtain ⟨rfl, -⟩ := append_inj' hw rfl
      cases rs with
      | nil => rw [append_nil]
      | cons z rs =>
        rw [Lexemes.next_eq_of_items hrs] at heof
        exact absurd heof (hitems z (by simp))
  subst hwitems
  exact ⟨.intro hfunction, hnearest⟩

/-- What the rules respect holds of a tree that has been read. -/
theorem Grammar.RespectedDeclarations.of_read {L : Lexeme → Prop} {S : Stmt → Prop}
    {D : Decl → Prop} (h : RespectedDeclarations L S D)
    (hstatement : ∀ n, Yields L n Statement S) {lexemes : List Lexeme} {tree : Decl}
    (hlexemes : ∀ x ∈ closed lexemes, L x) (hread : (read lexemes).1 = .ok tree) :
    D tree := by
  obtain ⟨w, r, hw, hfunction, -⟩ := Function.of_read hread
  rw [hw] at hlexemes
  exact h.definition hstatement _ hfunction
    ⟨Nat.lt_succ_self _, (forall_mem_append.mp hlexemes).1⟩

/-- A tree that has been read is the proper definition of a function. -/
theorem Decl.isProper_of_read {lexemes : List Lexeme} {tree : Decl}
    (h : (read lexemes).1 = .ok tree) : tree.IsFunction ∧ tree.IsProper := by
  obtain ⟨w, r, -, ⟨_, _, _, _⟩, -⟩ := Grammar.Function.of_read h
  exact ⟨trivial, Grammar.respectedDeclarations_proper.of_read
    Grammar.respected_proper.statement (fun _ _ => trivial) h⟩

end BlockLang
