import BlockLang.Proofs.Grammar.Sound

/-!
# What is derived is read

A reader is complete for a kind if it reads every phrase of the kind, provided that the token after
the phrase does not continue it. Where the grammar leaves open which `if` an `else` belongs to, the
readers take the nearest. A parenthesis at the front of a comparison is first tried as a condition;
this attempt fails, because an expression in front of a closing parenthesis is not a condition.
-/

namespace BlockLang

open False Grammar List Parse Token

variable {base : ExprNode Expr} {e : Expr} {l : Lexemes} {es : List Expr} {r v w z : List Lexeme}
  {K : List Lexeme → Expr → Prop} {ss : List Stmt} {x : Location}
  {node : Location → Expr → Expr → Expr} {separator t : Token} {ty : Ty} {α : Type}

namespace Phrase

section Combinator

variable {α β : Type} {K : List Lexeme → α → Prop}
  {F : α → Token → Prop} {P : Token → Prop} {n : Nat}

/-- A reader reads the phrases of a kind up to a length, in front of a token after which they
may end. -/
def Complete (K : List Lexeme → α → Prop) (F : α → Token → Prop) (x : Phrase Completed α)
    (n : Nat) : Prop :=
  ∀ ⦃w a r⦄, K w a → F a (front r) → w.length < n → Accepts x (w ++ r) (a, r)

/-- The front of what there is to read is the front of the phrase. -/
theorem next_eq (hstarts : Starts K P) {a : α} (h : K w a) :
    P (front (w ++ r)) ∧ (head (w ++ r)).location = start w := by
  obtain ⟨x, v, rfl, hx⟩ := hstarts h
  exact ⟨hx, rfl⟩

theorem many_complete {more : Token → Bool} {item : Phrase Completed α}
    (hitem : Complete K F item n)
    (hstarts : Starts K P) (hmore : ∀ t, P t → more t) (hfollow : ∀ a t, P t → F a t) :
    Complete (Many K) (fun _ t => more t = false ∧ ∀ a, F a t) (many more item) n := by
  rintro w as r h ⟨hend, hF⟩ hn
  induction h with
  | nil =>
    exact accepts_many_nil hend
  | @cons w v a as head tail ih =>
    rw [length_append] at hn
    rw [append_assoc]
    have hrest : F a (front (v ++ r)) := by
      cases tail with
      | nil => exact hF a
      | cons head' tail' =>
        rw [append_assoc]
        exact hfollow a _ (next_eq hstarts head').1
    have hlt : (v ++ r).length < (w ++ (v ++ r)).length := by
      have hpos := length_pos_iff.mpr (hstarts.ne_nil head)
      simp only [length_append]
      omega
    exact accepts_many_cons (hmore _ (next_eq hstarts head).1) (hitem head hrest (by omega)) hlt
      (ih (by omega))

theorem after_complete {item : Phrase Completed α} (ht : t ≠ .eof) (hitem : Complete K F item n) :
    Complete (After K t) F (do
      skip
      item) n := by
  rintro _ a r ⟨inner⟩ hF hn
  exact accepts_bind (accepts_skip ht) (hitem inner hF (Nat.lt_of_succ_lt hn))

theorem between_complete {left right : Token} {item : Phrase Completed α}
    (hleft : left ≠ .eof) (hright : right ≠ .eof) (hitem : Complete K F item n)
    (hF : ∀ a, F a right) : Complete (Between K left right) (fun _ _ => True) (do
      skip
      let a ← item
      expect right
      return a) n := by
  rintro _ a r @⟨x, x', w, _, inner⟩ - hn
  rw [cons_append, length_cons, length_append] at hn
  rw [append_assoc]
  refine accepts_bind (accepts_skip hleft) ?_
  refine accepts_bind (hitem inner (hF a) (by omega)) ?_
  exact accepts_bind (accepts_expect hright) accepts_pure

theorem separatedBy_complete {item : Phrase Completed α} (hseparator : separator ≠ .eof)
    (hitem : Complete K F item n) (hfollow : ∀ a, F a separator) :
    Complete (SeparatedBy K separator) (fun _ t => t ≠ separator ∧ ∀ a, F a t)
      (separatedBy separator item) n := by
  rintro _ _ r @⟨w, v, a, as, first, others⟩ ⟨hne, hF⟩ hn
  have hstarts : Starts (After K separator) (· = separator) := by
    rintro w a ⟨inner⟩
    exact ⟨_, _, rfl, rfl⟩
  rw [length_append] at hn
  rw [append_assoc]
  have hrest : F a (front (v ++ r)) := by
    cases others with
    | nil => exact hF a
    | cons head tail =>
      rw [append_assoc, (next_eq hstarts head).1]
      exact hfollow a
  have hothers : Complete (Many (After K separator))
      (fun _ t => decide (t = separator) = false ∧ ∀ a, F a t)
      (many (fun t => decide (t = separator)) do
        skip
        item) n :=
    many_complete (after_complete hseparator hitem) hstarts (fun t ht => decide_eq_true ht)
      fun a t ht => ht ▸ hfollow a
  refine accepts_bind (hitem first hrest (by omega)) (accepts_bind (hothers others ?_ (by omega))
    accepts_pure)
  exact ⟨decide_eq_false hne, hF⟩

/-- A list whose end is seen at a token that no item starts with. -/
theorem listed_accepts {close : Token} {item : Phrase Completed α} {k : List α → Phrase Completed β}
    (hseparator : separator ≠ .eof) (hitem : Complete K F item n) (hfollow : ∀ a, F a separator)
    (hstarts : Starts K P) (hclose : close ≠ separator ∧ ¬ P close ∧ ∀ a, F a close) {as : List α}
    {b : β × List Lexeme} (h : Listed K separator w as) (hn : w.length < n)
    (hk : Accepts (k as) (⟨close, x⟩ :: r) b) :
    Accepts (do
      let t ← peek
      if t = close then pure [] >>= k else separatedBy separator item >>= k)
      (w ++ ⟨close, x⟩ :: r) b := by
  refine accepts_bind accepts_peek ?_
  cases h with
  | none =>
    rw [nil_append, front_cons, if_pos rfl]
    exact accepts_bind accepts_pure hk
  | some items =>
    have hne : front (w ++ ⟨close, x⟩ :: r) ≠ close := by
      intro heq
      have hP := (next_eq hstarts.separatedBy items (r := ⟨close, x⟩ :: r)).1
      rw [heq] at hP
      exact hclose.2.1 hP
    rw [if_neg hne]
    refine accepts_bind (separatedBy_complete hseparator hitem hfollow items ?_ hn) hk
    exact ⟨hclose.1, hclose.2.2⟩

end Combinator

theorem complete_of_succ {K : List Lexeme → α → Prop} {F : α → Token → Prop}
    {x : Phrase Completed α} (h : ∀ n, Complete K F x n → Complete K F x (n + 1)) (n : Nat) :
    Complete K F x n := by
  induction n with
  | zero => exact fun _ _ _ _ _ hn => absurd hn (Nat.not_lt_zero _)
  | succ n ih => exact h n ih

section Joined

variable {K : List Lexeme → Expr → Prop} {operator : Token → (Location → Expr → Expr → Expr) → Prop}
  {item : Phrase Completed Expr} {ω : Type} {operator? : Token → Option ω}
  {join : Location → ω → Expr → Expr → Phrase Completed Expr}
  {F P : Token → Prop} {n : Nat}

variable (hitem : Complete K (fun _ => F) item n) (hstarts : Starts K P)
  (heof : operator? .eof = none)
  (hjoin : ∀ x t node, operator t node → F t ∧ ∃ o, operator? t = some o ∧ Makes (join x o)
    (node x))

include hitem hstarts heof hjoin

/-- Reading operands and operators comes to the point where a chain goes on from what the
grammar has joined. -/
theorem joined_accepts (h : Joined K operator w e) (hF : F (front r)) (hn : w.length < n)
    {b : Expr × List Lexeme}
    (hb : Accepts (chain item operator? (join (start w)) e) r b) :
    Accepts (do
      let x ← location
      chain item operator? (join x) (← item)) (w ++ r) b := by
  induction h generalizing r with
  | single only =>
    refine accepts_bind accepts_location ?_
    rw [(next_eq hstarts only).2]
    exact accepts_bind (hitem only hF hn) hb
  | @join w v a b' t l node left between right ih =>
    obtain ⟨x, w', hw, -⟩ := hstarts.joined left
    rw [length_append, length_cons] at hn
    rw [append_assoc, cons_append]
    obtain ⟨hcloses, o, hsome, hmakes⟩ := hjoin (start w) t node between
    refine ih hcloses (by omega) ?_
    refine accepts_chain_some hsome ?_ (hitem right hF (by omega)) (hmakes _ _ _)
      (by rw [length_append]; exact Nat.le_add_left ..) ?_
    · rintro rfl
      cases heof.symm.trans hsome
    · rw [hw] at hb ⊢
      exact hb

theorem joined_complete :
    Complete (Joined K operator) (fun _ t => F t ∧ operator? t = none) (do
      let x ← location
      chain item operator? (join x) (← item)) n := by
  rintro w e r h ⟨hF, hnone⟩ hn
  refine joined_accepts hitem hstarts heof hjoin h hF hn ?_
  exact accepts_chain_none hnone

end Joined

/-! ### Expressions -/

def ClosesFactor (t : Token) : Prop := t ≠ .symbol .leftBracket ∧ t ≠ .symbol .leftParen

def ClosesTerm (t : Token) : Prop := ClosesFactor t ∧ t.multiplicative? = none

/-- The tokens after which an expression may end. -/
def ClosesExpression (t : Token) : Prop := ClosesTerm t ∧ t.additive? = none

instance : DecidablePred ClosesFactor := fun _ => inferInstanceAs (Decidable (_ ∧ _))

instance : DecidablePred ClosesTerm := fun _ => inferInstanceAs (Decidable (_ ∧ _))

instance : DecidablePred ClosesExpression := fun _ => inferInstanceAs (Decidable (_ ∧ _))

theorem multiplies_closes (h : Multiplies t node) :
    ClosesFactor t ∧ ∃ o, t.multiplicative? = some o ∧
      Makes (fun a b => newExpr (.arith o a b) x) (node x) := by
  cases h <;> exact ⟨by decide, _, rfl, makes_newExpr⟩

theorem adds_closes (h : Adds t node) :
    ClosesTerm t ∧ ∃ o, t.additive? = some o ∧
      Makes (fun a b => newExpr (.arith o a b) x) (node x) := by
  cases h <;> exact ⟨by decide, _, rfl, makes_newExpr⟩

theorem subscripting?_eq_none (h : t ≠ .symbol .leftBracket) : t.subscripting? = none := by
  unfold subscripting?
  split
  · exact absurd rfl h
  · rfl

/-- What follows the name of a place is no parenthesis. -/
theorem front_subscripts_ne
    (h : Many (Between K (.symbol .leftBracket) (.symbol .rightBracket)) w es)
    (hr : front r ≠ .symbol .leftParen) : front (w ++ r) ≠ .symbol .leftParen := by
  cases h with
  | nil => exact hr
  | cons head tail =>
    obtain ⟨inner⟩ := head
    exact (by decide : symbol .leftBracket ≠ .symbol .leftParen)

section Inner

variable {expression : Phrase Completed Expr} {n : Nat}
  (h : Complete Expression (fun _ => ClosesExpression) expression n)

include h

theorem arguments_complete :
    Complete (Between (Listed Expression (.symbol .comma)) (.symbol .leftParen)
      (.symbol .rightParen)) (fun _ _ => True) (arguments expression) (n + 1) := by
  rintro _ es r @⟨x, x', w, _, inner⟩ - hn
  rw [cons_append, length_cons, length_append] at hn
  rw [append_assoc]
  have hclose : symbol .rightParen ≠ .symbol .comma ∧ ¬ BeginsFactor (.symbol .rightParen) ∧
      ∀ _ : Expr, ClosesExpression (.symbol .rightParen) := by
    refine ⟨by decide, ?_, fun _ => by decide⟩
    rintro (h | h | h) <;> cases h
  refine accepts_bind (accepts_expect nofun) ?_
  refine listed_accepts Token.noConfusion h (fun _ => by decide) starts_expression
    hclose inner (by omega) ?_
  exact accepts_bind (accepts_expect nofun) accepts_pure

theorem callOf_complete :
    Complete (Call Expression) (fun _ _ => True) (callOf expression) (n + 1) := by
  rintro _ _ r @⟨x, f, w, es, arguments⟩ - hn
  refine accepts_bind accepts_declaredName ?_
  exact accepts_bind (arguments_complete h arguments trivial (Nat.lt_of_succ_lt hn)) accepts_newExpr

theorem placeOf_accepts (ht : t ≠ .eof)
    (hbase : ∀ es e, Expr.subscript x ((base.tree x).subscripted es) e =
      (base.tree x).subscripted (es ++ [e]))
    (hw : Many (Between Expression (.symbol .leftBracket) (.symbol .rightBracket)) w es)
    (hr : front r ≠ .symbol .leftBracket) (hn : w.length < n) :
    Accepts (placeOf expression base) (⟨t, x⟩ :: (w ++ r)) ((base.tree x).subscripted es, r) := by
  refine accepts_bind accepts_location (accepts_bind (accepts_skip ht)
    (accepts_bind accepts_newExpr ?_))
  -- the subscripts before these are any list, at the start the empty one
  have hchain : ∀ before, Accepts (chain (subscript expression) subscripting?
      (fun _ a e => newExpr (.index a e) x) ((base.tree x).subscripted before)) (w ++ r)
      ((base.tree x).subscripted (before ++ es), r) := by
    induction hw with
    | nil =>
      intro before
      rw [append_nil]
      exact accepts_chain_none (subscripting?_eq_none hr)
    | @cons _ v e es head _ ih =>
      intro before
      obtain @⟨y, y', u, _, inner⟩ := head
      simp only [cons_append, append_assoc, nil_append, length_cons, length_append] at hn ⊢
      have hsubscript : Accepts (subscript expression) (u ++ ⟨.symbol .rightBracket, y'⟩ ::
          (v ++ r)) (e, v ++ r) :=
        accepts_bind (h inner (by decide : ClosesExpression (.symbol .rightBracket))
          (by omega)) (accepts_bind (accepts_expect nofun) accepts_pure)
      refine accepts_chain_some (t := .symbol .leftBracket) rfl nofun hsubscript
        accepts_newExpr ?_ ?_
      · simp only [length_append, length_cons]
        omega
      · have hrest := ih (by omega) (before ++ [e])
        rw [append_assoc, ← hbase] at hrest
        exact hrest
  exact hchain []

end Inner

section Operand

variable {operand : Phrase Completed Expr} {n : Nat}
  (h : Complete Factor (fun _ => ClosesFactor) operand n)

include h

theorem product_complete : Complete Term (fun _ => ClosesTerm) (product operand) n := by
  rintro w e r hw ⟨hfactor, hnone⟩ hn
  exact joined_complete h starts_factor rfl (fun _ _ _ => multiplies_closes) hw ⟨hfactor, hnone⟩ hn

theorem sum_complete : Complete Expression (fun _ => ClosesExpression) (sum operand) n := by
  rintro w e r hw ⟨hterm, hnone⟩ hn
  exact joined_complete (product_complete h) starts_factor.joined rfl (fun _ _ _ => adds_closes)
    hw ⟨hterm, hnone⟩ hn

theorem operandOf_complete :
    Complete Factor (fun _ => ClosesFactor) (operandOf operand) (n + 1) := by
  intro w e r hw hr hn
  refine accepts_bind accepts_location (accepts_bind accepts_peek ?_)
  cases hw with
  | int => exact accepts_bind (accepts_skip nofun) accepts_newExpr
  | char => exact accepts_bind (accepts_skip nofun) accepts_newExpr
  | place inner =>
    cases inner with
    | name subscripts =>
      rw [cons_append]
      refine accepts_bind (accepts_peekSecond nofun) ?_
      rw [if_neg (front_subscripts_ne subscripts hr.2)]
      exact placeOf_accepts (sum_complete h) nofun (fun _ _ => Expr.subscript_subscripted_name)
        subscripts hr.1 (Nat.lt_of_succ_lt_succ hn)
    | string subscripts =>
      exact placeOf_accepts (sum_complete h) nofun (fun _ _ => Expr.subscript_subscripted_string)
        subscripts hr.1 (Nat.lt_of_succ_lt_succ hn)
  | call inner =>
    have hcall := callOf_complete (sum_complete h) (r := r) inner trivial hn
    obtain ⟨⟨inner⟩⟩ := inner
    exact accepts_bind (accepts_peekSecond nofun) hcall
  | group inner =>
    obtain @⟨x, x', w, _, inner⟩ := inner
    rw [cons_append, length_cons, length_append] at hn
    rw [append_assoc]
    refine accepts_bind accepts_location (accepts_bind (accepts_expect nofun) ?_)
    refine accepts_bind (sum_complete h inner (by decide : ClosesExpression (.symbol .rightParen))
      (by omega)) ?_
    exact accepts_bind (accepts_expect nofun) accepts_newExpr
  | sign sign operand =>
    have hoperand := h operand hr (Nat.lt_of_succ_lt_succ hn)
    cases sign <;> exact accepts_bind accepts_location (accepts_bind (accepts_advance nofun)
      (accepts_bind hoperand accepts_newExpr))

end Operand

theorem operand_complete (n : Nat) : Complete Factor (fun _ => ClosesFactor) operand n :=
  complete_of_succ (fun _ h => operand_eq ▸ operandOf_complete h) n

theorem expression_complete (n : Nat) :
    Complete Expression (fun _ => ClosesExpression) expression n := by
  rw [expression_eq]
  exact sum_complete (operand_complete n)

theorem call_complete (n : Nat) : Complete (Call Expression) (fun _ _ => True) call (n + 1) :=
  callOf_complete (expression_complete n)

/-! ### Conditions -/

/-- The tokens after which a negation may end. -/
def ClosesNegation (t : Token) : Prop := ClosesExpression t ∧ t.relation? = none

/-- The tokens after which a conjunction may end. -/
def ClosesConjunction (t : Token) : Prop := ClosesNegation t ∧ t.conjunctive? = none

/-- The tokens after which a condition may end. -/
def ClosesCondition (t : Token) : Prop := ClosesConjunction t ∧ t.disjunctive? = none

instance : DecidablePred ClosesNegation := fun _ => inferInstanceAs (Decidable (_ ∧ _))

instance : DecidablePred ClosesConjunction := fun _ => inferInstanceAs (Decidable (_ ∧ _))

instance : DecidablePred ClosesCondition := fun _ => inferInstanceAs (Decidable (_ ∧ _))

theorem ClosesNegation.not_isOperator (h : ClosesNegation t) : t.isOperator = false := by
  obtain ⟨⟨⟨-, hmultiplicative⟩, hadditive⟩, hrelation⟩ := h
  rw [isOperator, hrelation, arith?_eq_none hadditive hmultiplicative]
  rfl

theorem relates_closes {r : Relation} (h : Relates t r) :
    t ≠ .eof ∧ ClosesExpression t ∧ t.relation? = some r := by
  cases h <;> exact ⟨by decide, by decide, rfl⟩

theorem comparison_accepts {a b : Expr} {relation : Relation} (hw : Expression w a)
    (ht : Relates t relation) (hv : Expression v b) (hr : ClosesExpression (front r)) :
    Accepts comparison (w ++ ⟨t, x⟩ :: (v ++ r)) (.compare (start w) relation a b, r) := by
  obtain ⟨hne, hcloses, hrelation⟩ := relates_closes ht
  refine accepts_bind accepts_location ?_
  rw [(next_eq starts_expression hw).2]
  refine accepts_bind (expression_complete _ hw hcloses (Nat.lt_succ_self _)) ?_
  refine accepts_bind accepts_peek ?_
  rw [front_cons, hrelation]
  refine accepts_bind (accepts_skip hne) ?_
  exact accepts_bind (expression_complete _ hv hr (Nat.lt_succ_self _)) accepts_newExpr

/-- An expression in front of a closing parenthesis is no comparison. -/
theorem comparison_refuses (hw : Expression w e)
    (hl : l.items = w ++ ⟨.symbol .rightParen, x⟩ :: r) : Leads comparison l fun _ _ => False := by
  refine leads_bind leads_location ?_
  rintro _ _ ⟨-, rfl⟩
  refine leads_bind (leads_of_accepts (expression_complete _ hw ?_ (Nat.lt_succ_self _)) hl) ?_
  · exact (by decide : ClosesExpression (.symbol .rightParen))
  · rintro _ m ⟨-, hm⟩
    refine leads_bind leads_peek ?_
    rintro _ _ ⟨rfl, rfl⟩
    rw [Lexemes.next_eq_of_items hm]
    exact leads_fail

/-- A phrase that starts with a parenthesis starts with an expression in parentheses. -/
def StartsWithGroup (w : List Lexeme) : Prop :=
  ∀ x v, w = ⟨.symbol .leftParen, x⟩ :: v → ∃ u x' u' e,
    v = u ++ ⟨.symbol .rightParen, x'⟩ :: u' ∧ Expression u e

theorem startsWithGroup_joined {P : Token → Prop}
    {operator : Token → (Location → Expr → Expr → Expr) → Prop} (hstarts : Starts K P)
    (h : ∀ w e, K w e → StartsWithGroup w) (hw : Joined K operator w e) : StartsWithGroup w := by
  induction hw with
  | single only => exact h _ _ only
  | join left _ _ ih =>
    obtain ⟨y, v, rfl, -⟩ := hstarts.joined left
    intro x v' heq
    obtain ⟨rfl, rfl⟩ := List.cons.inj heq
    obtain ⟨u, x', u', e, rfl, he⟩ := ih x v rfl
    exact ⟨u, x', _, e, append_assoc .., he⟩

theorem startsWithGroup_factor (w : List Lexeme) (e : Expr) (h : Factor w e) :
    StartsWithGroup w := by
  intro x v heq
  cases h with
  | int => cases heq
  | char => cases heq
  | place inner => cases inner <;> cases heq
  | call inner =>
    cases inner
    cases heq
  | group inner =>
    obtain @⟨x, x', u, _, inner⟩ := inner
    cases heq
    exact ⟨u, x', [], _, rfl, inner⟩
  | sign sign operand => cases sign <;> cases heq

theorem startsWithGroup_expression (h : Expression w e) : StartsWithGroup w :=
  startsWithGroup_joined starts_factor.joined
    (fun _ _ => startsWithGroup_joined starts_factor startsWithGroup_factor) h

/-- A reader of conditions refuses an expression in front of a closing parenthesis. -/
def Refuses (negation : Phrase Completed Expr) (n : Nat) : Prop :=
  ∀ ⦃w e x r⦄ ⦃l : Lexemes⦄, Expression w e → w.length < n →
    l.items = w ++ ⟨.symbol .rightParen, x⟩ :: r → Leads negation l fun _ _ => False

section Negation

variable {negation : Phrase Completed Expr} {n : Nat}
  (h : Complete Negation (fun _ => ClosesNegation) negation n)

include h

theorem conjunction_complete :
    Complete Conjunction (fun _ => ClosesConjunction) (conjunction negation) n := by
  rintro w e r hw ⟨hnegation, hnone⟩ hn
  refine joined_complete h starts_negation rfl (fun x t node hnode => ?_) hw ⟨hnegation, hnone⟩ hn
  cases hnode
  exact ⟨by decide, _, rfl, makes_newExpr⟩

theorem disjunction_complete :
    Complete Condition (fun _ => ClosesCondition) (disjunction negation) n := by
  rintro w e r hw ⟨hconjunction, hnone⟩ hn
  refine joined_complete (conjunction_complete h) starts_negation.joined rfl
    (fun x t node hnode => ?_) hw ⟨hconjunction, hnone⟩ hn
  cases hnode
  exact ⟨by decide, _, rfl, makes_newExpr⟩

theorem groupedCondition_accepts
    (hw : Between Condition (.symbol .leftParen) (.symbol .rightParen) w e)
    (hn : w.length < n + 1) :
    Accepts (groupedCondition negation) (w ++ r)
      (if (front r).isOperator then none else some e, r) := by
  obtain @⟨x, x', w, _, inner⟩ := hw
  rw [cons_append, length_cons, length_append] at hn
  rw [append_assoc]
  refine accepts_bind (accepts_expect nofun) ?_
  refine accepts_bind (disjunction_complete h inner
    (by decide : ClosesCondition (.symbol .rightParen)) (by omega)) ?_
  exact accepts_bind (accepts_expect nofun) (accepts_bind accepts_peek accepts_pure)

omit h in
theorem disjunction_refuses (hrefuses : Refuses negation n) : Refuses (disjunction negation) n := by
  intro w e x r l hw hn hl
  refine leads_bind leads_location ?_
  rintro _ _ ⟨-, rfl⟩
  refine leads_bind (leads_bind leads_location ?_) fun _ _ => elim
  rintro _ _ ⟨-, rfl⟩
  exact leads_bind (hrefuses hw hn hl) fun _ _ => elim

omit h in
/-- An expression in parentheses is no condition. -/
theorem groupedCondition_refuses (hrefuses : Refuses negation n) {x' : Location}
    (hw : Expression w e) (hn : w.length < n)
    (hl : l.items = ⟨.symbol .leftParen, x⟩ :: (w ++ ⟨.symbol .rightParen, x'⟩ :: r)) :
    Leads (groupedCondition negation) l fun _ _ => False := by
  refine leads_bind (leads_of_accepts (accepts_expect nofun) hl) ?_
  rintro _ m ⟨-, hm⟩
  exact leads_bind (disjunction_refuses hrefuses hw hn hm) fun _ _ => elim

omit h in
/-- What starts with an expression is not tried as a condition, or in vain. -/
theorem attempt_expression (hrefuses : Refuses negation n) (hw : Expression w e)
    (hn : w.length < n + 1) (hnext : front (w ++ r) = .symbol .leftParen) :
    Accepts (attempt (groupedCondition negation)) (w ++ r) (none, w ++ r) := by
  have hgroup := startsWithGroup_expression hw
  obtain ⟨⟨t, x⟩, v, rfl, -⟩ := starts_expression hw
  rw [cons_append, front_cons] at hnext
  subst hnext
  obtain ⟨u, x', u', e', rfl, he'⟩ := hgroup x v rfl
  rw [length_cons, length_append] at hn
  rw [cons_append, append_assoc]
  exact accepts_of_gives fun l hl => gives_attempt_none
    ((groupedCondition_refuses hrefuses he' (by omega) hl).imp fun _ _ => elim)

omit h in
theorem ne_not_of_expression (hw : Expression w e) : front (w ++ r) ≠ .keyword .not := by
  intro hnot
  have hbegins := (next_eq (r := r) starts_expression hw).1
  rw [hnot] at hbegins
  rcases hbegins with h | h | h

theorem negationOf_complete (hrefuses : Refuses negation n) :
    Complete Negation (fun _ => ClosesNegation) (negationOf negation) (n + 1) := by
  intro w e r hw hr hn
  cases hw with
  | not operand =>
    refine accepts_bind accepts_location (accepts_bind accepts_peek ?_)
    exact accepts_bind (accepts_skip nofun)
      (accepts_bind (h operand hr (Nat.lt_of_succ_lt_succ hn)) accepts_newExpr)
  | @group _ e inner =>
    obtain ⟨hnext, hstart⟩ := next_eq (r := r) starts_between inner
    have hgroup := groupedCondition_accepts h (r := r) inner hn
    rw [hr.not_isOperator] at hgroup
    refine accepts_bind accepts_location (accepts_bind accepts_peek ?_)
    rw [hnext, hstart]
    exact accepts_bind (accepts_attempt hgroup) accepts_newExpr
  | @compare x _ _ _ _ _ _ left relation right =>
    rw [length_append] at hn
    rw [append_assoc, cons_append]
    refine accepts_bind accepts_location (accepts_bind accepts_peek ?_)
    have hcompare := comparison_accepts (x := x) left relation right hr.1
    generalize hnext : front (_ ++ ⟨_, x⟩ :: (_ ++ r)) = t
    split
    · exact absurd hnext (ne_not_of_expression left)
    · exact accepts_bind (attempt_expression hrefuses left (by omega) hnext) hcompare
    · exact hcompare

omit h in
theorem negationOf_refuses (hrefuses : Refuses negation n) :
    Refuses (negationOf negation) (n + 1) := by
  intro w e x r l hw hn hl
  refine leads_bind leads_location ?_
  rintro _ _ ⟨-, rfl⟩
  refine leads_bind leads_peek ?_
  rintro t _ ⟨ht, rfl⟩
  have hfront : front (w ++ ⟨.symbol .rightParen, x⟩ :: r) = t := by
    rw [ht, front, ← next_eq_head hl]
  split
  · exact absurd hfront (ne_not_of_expression hw)
  · refine leads_bind (leads_of_accepts (attempt_expression hrefuses hw hn hfront) hl) ?_
    rintro _ _ ⟨rfl, hm⟩
    exact comparison_refuses hw hm
  · exact comparison_refuses hw hl

end Negation

/-- Every negation is read, and no expression in parentheses is taken for one. -/
theorem negation_complete (n : Nat) :
    Complete Negation (fun _ => ClosesNegation) negation n ∧ Refuses negation n := by
  induction n with
  | zero => exact ⟨fun _ _ _ _ _ hn => absurd hn (Nat.not_lt_zero _),
      fun _ _ _ _ _ _ hn => absurd hn (Nat.not_lt_zero _)⟩
  | succ n ih =>
    rw [negation_eq]
    exact ⟨negationOf_complete ih.1 ih.2, negationOf_refuses ih.2⟩

theorem condition_complete (n : Nat) :
    Complete Condition (fun _ => ClosesCondition) condition n :=
  disjunction_complete (negation_complete n).1

/-! ### Statements -/

/-- A statement whose open end, if it has one, is not continued. -/
def ClosesStatement (s : Stmt) (t : Token) : Prop := s.endsOpen → t ≠ .keyword .«else»

theorem assignment_accepts {x1 x2 : Location} (ht : t ≠ .eof)
    (hbase : ∀ es e, Expr.subscript x ((base.tree x).subscripted es) e =
      (base.tree x).subscripted (es ++ [e]))
    (hw : Many (Between Expression (.symbol .leftBracket) (.symbol .rightBracket)) w es)
    (hv : Expression v e) :
    Accepts (statementOf.assignment x base) (⟨t, x⟩ :: (w ++ ⟨.symbol .assign, x1⟩ ::
      (v ++ ⟨.symbol .semicolon, x2⟩ :: r))) (.assign x ((base.tree x).subscripted es) e, r) := by
  refine accepts_bind (placeOf_accepts (expression_complete _) ht hbase hw ?_
    (Nat.lt_succ_self _)) ?_
  · rw [front_cons]
    decide
  · refine accepts_bind (accepts_expect nofun) ?_
    refine accepts_bind (expression_complete _ hv
      (by decide : ClosesExpression (.symbol .semicolon)) (Nat.lt_succ_self _)) ?_
    exact accepts_bind (accepts_expect nofun) accepts_newStmt

/-- A condition between two tokens, in front of what it guards. -/
theorem guard_accepts {β : Type} {k : Expr → Phrase Completed β} {c : Expr} {b : β} {t' : Token}
    {x' : Location} {u : List Lexeme} (ht : t ≠ .eof) (ht' : t' ≠ .eof) (hw : Condition w c)
    (hclose : ClosesCondition t') (hk : Accepts (k c) v (b, u)) :
    Accepts (do skip; let c ← condition; expect t'; k c) (⟨t, x⟩ :: (w ++ ⟨t', x'⟩ :: v))
      (b, u) := by
  refine accepts_bind (accepts_skip ht) ?_
  refine accepts_bind (condition_complete _ hw hclose (Nat.lt_succ_self _)) ?_
  exact accepts_bind (accepts_expect ht') hk

section Statement

variable {statement : Phrase Completed Stmt} {n : Nat}
  (h : Complete IsStatement ClosesStatement statement n)

include h

theorem statementsOf_complete (hw : Many Statement w ss) (hnearest : Stmt.AllNearestElse ss)
    (hn : w.length < n) :
    Accepts (statementsOf statement) (w ++ ⟨.keyword .«end», x⟩ :: r)
      (ss, ⟨.keyword .«end», x⟩ :: r) := by
  refine many_complete h (starts_statement.and _) (fun t ht => ?_) (fun s t ht _ => ?_)
    (hw.of_forall (Stmt.allNearestElse_iff.mp hnearest)) ?_ hn
  · refine decide_eq_true ⟨?_, ?_⟩
    · rintro rfl
      rcases ht with h | h | h | h <;> cases h
    · rintro rfl
      exact ht
  · rintro rfl
    rcases ht with h | h | h | h <;> cases h
  · rw [front_cons]
    exact ⟨by decide, fun s _ => by decide⟩

theorem statementOf_complete :
    Complete IsStatement ClosesStatement (statementOf statement)
      (n + 1) := by
  rintro w s r ⟨hw, hnearest⟩ hr hn
  refine accepts_bind accepts_location (accepts_bind accepts_peek ?_)
  cases hw with
  | empty => exact accepts_bind (accepts_skip nofun) accepts_newStmt
  | @assign x x' w v a b target value =>
    simp only [append_assoc, cons_append, nil_append]
    cases target with
    | name subscripts =>
      rw [cons_append]
      refine accepts_bind (accepts_peekSecond nofun) ?_
      rw [if_neg (front_subscripts_ne subscripts (by rw [front_cons]; decide))]
      exact assignment_accepts nofun (fun _ _ => Expr.subscript_subscripted_name) subscripts value
    | string subscripts =>
      exact assignment_accepts nofun (fun _ _ => Expr.subscript_subscripted_string) subscripts value
  | @call x w e call =>
    have hcall := call_complete _ (r := ⟨.symbol .semicolon, x⟩ :: r) call trivial
      (Nat.lt_succ_self _)
    simp only [append_assoc, cons_append, nil_append]
    obtain ⟨⟨inner⟩⟩ := call
    refine accepts_bind (accepts_peekSecond nofun) (accepts_bind hcall ?_)
    exact accepts_bind (accepts_expect nofun) accepts_newStmt
  | block body =>
    obtain @⟨x, x', w, _, inner⟩ := body
    rw [cons_append, length_cons, length_append] at hn
    rw [append_assoc]
    refine accepts_bind (accepts_skip nofun) ?_
    refine accepts_bind (statementsOf_complete h inner hnearest (by omega)) ?_
    exact accepts_bind (accepts_expect nofun) accepts_newStmt
  | @ifThen x x' w v c s condition body =>
    simp only [cons_append, append_assoc, length_cons, length_append] at hn ⊢
    refine guard_accepts nofun nofun condition (by decide) ?_
    refine accepts_bind (h ⟨body, hnearest⟩ (fun _ => hr rfl) (by omega)) ?_
    exact accepts_bind (accepts_accept_other (hr rfl)) accepts_newStmt
  | @ifElse x x' x'' w v u c s s' condition body otherwise =>
    simp only [cons_append, append_assoc, length_cons, length_append] at hn ⊢
    refine guard_accepts nofun nofun condition (by decide) ?_
    refine accepts_bind (h ⟨body, hnearest.2.1⟩ (fun hopen => absurd hopen hnearest.1)
      (by omega)) ?_
    refine accepts_bind (accepts_accept nofun) ?_
    exact accepts_bind (h ⟨otherwise, hnearest.2.2⟩ hr (by omega)) accepts_newStmt
  | @whileDo x x' w v c s condition body =>
    simp only [cons_append, append_assoc, length_cons, length_append] at hn ⊢
    refine guard_accepts nofun nofun condition (by decide) ?_
    exact accepts_bind (h ⟨body, hnearest⟩ hr (by omega)) accepts_newStmt
  | @returnValue x x' w e value =>
    simp only [append_assoc, cons_append, nil_append]
    refine accepts_bind (accepts_skip nofun) ?_
    refine accepts_bind (accepts_accept_other ?_) ?_
    · intro heq
      have hstart := (next_eq (r := ⟨.symbol .semicolon, x'⟩ :: r) starts_expression value).1
      rw [heq] at hstart
      rcases hstart with h | h | h <;> cases h
    · refine accepts_bind (expression_complete _ value
        (by decide : ClosesExpression (.symbol .semicolon)) (Nat.lt_succ_self _)) ?_
      exact accepts_bind (accepts_expect nofun) accepts_newStmt
  | returnNothing =>
    refine accepts_bind (accepts_skip nofun) ?_
    exact accepts_bind (accepts_accept nofun) accepts_newStmt

end Statement

/-- Every statement is read, in the tree whose `else` parts belong to the nearest open `if`. -/
theorem statement_complete (n : Nat) :
    Complete IsStatement ClosesStatement statement n :=
  complete_of_succ (fun _ h => statement_eq ▸ statementOf_complete h) n

theorem body_accepts {closed : Bool} (hw : Body w ss) (hnearest : Stmt.AllNearestElse ss)
    (hz : Optional [.symbol .semicolon] z closed) (hr : front r ≠ .symbol .semicolon) :
    Accepts body (w ++ (z ++ r)) (ss, r) := by
  obtain @⟨x, x', w, _, inner⟩ := hw
  simp only [append_assoc, cons_append, nil_append]
  refine accepts_bind (accepts_expect nofun) ?_
  refine accepts_bind (statementsOf_complete (statement_complete _) inner hnearest
    (Nat.lt_succ_self _)) ?_
  refine accepts_bind (accepts_expect nofun) ?_
  cases hz with
  | absent => exact accepts_bind (accepts_accept_other hr) accepts_pure
  | present tokens =>
    obtain ⟨⟨t, y⟩, rfl, rfl⟩ := map_eq_singleton_iff.mp tokens
    exact accepts_bind (accepts_accept nofun) accepts_pure

/-! ### Declarations -/

theorem declaredNames_complete (n : Nat) :
    Complete Names (fun _ t => t ≠ .symbol .comma) declaredNames n := by
  intro w xs r hw hr hn
  refine separatedBy_complete (F := fun _ _ => True) Token.noConfusion ?_ (fun _ => trivial) hw
    ⟨hr, fun _ => trivial⟩ hn
  rintro _ _ r ⟨⟩ - -
  exact accepts_bind accepts_declaredName accepts_pure

theorem scalarType_accepts (h : Scalar t ty) :
    Accepts scalarType (⟨t, x⟩ :: r) (ty, r) := by
  refine accepts_bind accepts_peek ?_
  cases h <;> exact accepts_bind (accepts_skip nofun) accepts_pure

theorem resultType_accepts (h : Result t ty) :
    Accepts resultType (⟨t, x⟩ :: r) (ty, r) := by
  refine accepts_bind accepts_peek ?_
  cases h with
  | scalar scalar => cases scalar <;> exact accepts_bind (accepts_skip nofun) accepts_pure
  | nothing => exact accepts_bind (accepts_skip nofun) accepts_pure

theorem extent_complete (n : Nat) : Complete Extent (fun _ _ => True) extent n := by
  rintro _ _ r ⟨positive⟩ - -
  refine accepts_bind accepts_peek ?_
  dsimp only [cons_append, front_cons]
  rw [if_pos positive]
  exact accepts_bind (accepts_skip nofun) accepts_pure

theorem extents_complete (n : Nat) :
    Complete Extents (fun _ t => t ≠ .symbol .leftBracket) extents n := by
  intro w sizes r hw hr hn
  have hitem : Complete (Between Extent (.symbol .leftBracket) (.symbol .rightBracket))
      (fun _ _ => True) _ n :=
    between_complete nofun nofun (extent_complete n) fun _ => trivial
  exact many_complete hitem starts_between (fun t ht => decide_eq_true ht)
    (fun _ _ _ => trivial) hw ⟨decide_eq_false hr, fun _ => trivial⟩ hn

/-- Brackets that are not empty are not taken for those that are. -/
theorem openExtent_accepts {isOpen : Bool} {sizes : List Nat}
    (hz : Optional [.symbol .leftBracket, .symbol .rightBracket] z isOpen) (hv : Extents v sizes)
    (hr : front r ≠ .symbol .leftBracket) :
    Accepts openExtent (z ++ (v ++ r)) (isOpen, v ++ r) := by
  refine accepts_bind accepts_peek ?_
  cases hz with
  | absent =>
    cases hv with
    | nil =>
      rw [nil_append, nil_append, if_pos hr]
      exact accepts_pure
    | cons head tail =>
      obtain ⟨⟨positive⟩⟩ := head
      exact accepts_bind (accepts_peekSecond nofun) accepts_pure
  | present tokens =>
    obtain ⟨⟨t, x⟩, z', rfl, rfl, hz'⟩ := map_eq_cons_iff.mp tokens
    obtain ⟨⟨t', x'⟩, rfl, rfl⟩ := map_eq_singleton_iff.mp hz'
    refine accepts_bind (accepts_peekSecond nofun) ?_
    refine accepts_bind (accepts_skip nofun) ?_
    exact accepts_bind (accepts_skip nofun) accepts_pure

theorem vars_complete (n : Nat) : Complete Vars (fun _ _ => True) vars n := by
  rintro _ _ r @⟨x, x1, x2, x3, w, v, t, xs, ty, sizes, names, scalar, extents⟩ - -
  simp only [append_assoc, cons_append, nil_append]
  refine accepts_bind (accepts_expect nofun) ?_
  refine accepts_bind (declaredNames_complete _ names
    (by decide : symbol .colon ≠ .symbol .comma) (Nat.lt_succ_self _)) ?_
  refine accepts_bind (accepts_expect nofun) ?_
  refine accepts_bind (scalarType_accepts scalar) ?_
  refine accepts_bind (extents_complete _ extents
    (by decide : symbol .semicolon ≠ .symbol .leftBracket) (Nat.lt_succ_self _)) ?_
  exact accepts_bind (accepts_expect nofun) accepts_newDecl

theorem starts_names : Starts Names fun t => ∃ x, t = .name x := by
  refine Starts.separatedBy ?_
  rintro _ _ ⟨⟩
  exact ⟨_, _, rfl, _, rfl⟩

theorem starts_parameters : Starts Parameters fun t => t = .keyword .ref ∨ ∃ x, t = .name x := by
  rintro _ _ ⟨reference, names, scalar, opening, extents⟩
  cases reference with
  | absent =>
    obtain ⟨y, v, rfl, hy⟩ := starts_names names
    exact ⟨y, _, rfl, .inr hy⟩
  | present tokens =>
    obtain ⟨y, rfl, hy⟩ := map_eq_singleton_iff.mp tokens
    exact ⟨y, _, rfl, .inl hy⟩

theorem parameterGroup_complete (n : Nat) :
    Complete Parameters (fun _ t => t ≠ .symbol .leftBracket) parameterGroup n := by
  rintro _ _ r @⟨x, x', u, w, z, v, t, byReference, isOpen, xs, ty, sizes, reference, names, scalar,
    opening, extents⟩ hr -
  simp only [append_assoc, cons_append]
  have hreference : ∀ s,
      Accepts (accept (.keyword .ref)) (u ++ (w ++ s)) (byReference, w ++ s) := by
    intro s
    cases reference with
    | absent =>
      refine accepts_accept_other fun heq => ?_
      obtain ⟨y, hy⟩ := (next_eq (r := s) starts_names names).1
      cases hy.symm.trans heq
    | present tokens =>
      obtain ⟨⟨t, y⟩, rfl, rfl⟩ := map_eq_singleton_iff.mp tokens
      exact accepts_accept nofun
  refine accepts_bind (hreference _) ?_
  refine accepts_bind (declaredNames_complete _ names
    (by decide : symbol .colon ≠ .symbol .comma) (Nat.lt_succ_self _)) ?_
  refine accepts_bind (accepts_expect nofun) ?_
  refine accepts_bind (scalarType_accepts scalar) ?_
  refine accepts_bind (openExtent_accepts opening extents hr) ?_
  exact accepts_bind (extents_complete _ extents hr (Nat.lt_succ_self _)) accepts_pure

theorem header_accepts {h : Header} (hw : Head w h) :
    Accepts header (w ++ r) (h, r) := by
  obtain @⟨x, x1, x2, x3, f, w, t, groups, result, @⟨x4, x5, v, _, inner⟩, type⟩ := hw
  simp only [append_assoc, cons_append, nil_append]
  have hclose : symbol .rightParen ≠ .symbol .semicolon ∧
      ¬ (symbol .rightParen = .keyword .ref ∨ ∃ x, symbol .rightParen = .name x) ∧
      ∀ _ : ParameterGroup, symbol .rightParen ≠ .symbol .leftBracket := by
    refine ⟨by decide, ?_, fun _ => by decide⟩
    rintro (h | ⟨x, h⟩) <;> cases h
  refine accepts_bind (accepts_expect nofun) (accepts_bind accepts_declaredName ?_)
  refine accepts_bind (accepts_expect nofun) ?_
  refine listed_accepts Token.noConfusion (parameterGroup_complete _)
    (fun _ => (by decide : symbol .semicolon ≠ .symbol .leftBracket)) starts_parameters hclose
    inner (Nat.lt_succ_self _) ?_
  refine accepts_bind (accepts_expect nofun) ?_
  refine accepts_bind (accepts_expect nofun) ?_
  exact accepts_bind (resultType_accepts type) accepts_pure

theorem starts_head : Starts Head (· = .keyword .function) := by
  rintro _ _ ⟨parameters, type⟩
  exact ⟨_, _, rfl, rfl⟩

theorem starts_function : Starts Grammar.Function (· = .keyword .function) := by
  rintro _ _ ⟨header, locals, body, closing⟩
  obtain ⟨y, v, rfl, hy⟩ := starts_head header
  exact ⟨y, _, rfl, hy⟩

theorem starts_vars : Starts Vars (· = .keyword .var) := by
  rintro _ _ ⟨names, scalar, extents⟩
  exact ⟨_, _, rfl, rfl⟩

theorem starts_local : Starts (Local Grammar.Function)
    fun t => t = .keyword .function ∨ t = .keyword .var := by
  intro w d h
  cases h with
  | function inner =>
    obtain ⟨y, v, rfl, hy⟩ := starts_function inner
    exact ⟨y, v, rfl, .inl hy⟩
  | forward header =>
    obtain ⟨y, v, rfl, hy⟩ := starts_head header
    exact ⟨y, _, rfl, .inl hy⟩
  | vars inner =>
    obtain ⟨y, v, rfl, hy⟩ := starts_vars inner
    exact ⟨y, v, rfl, .inr hy⟩

section Definition

variable {definition : Phrase Completed Decl} {n : Nat}
  (h : Complete IsDefinition (fun _ t => t ≠ .symbol .semicolon) definition n)

include h

theorem local_complete : Complete (fun w d => Local Grammar.Function w d ∧ d.NearestElse)
    (fun _ t => t ≠ .symbol .semicolon) (do
      if (← peek) = .keyword .function then definition else vars) n := by
  rintro w d r ⟨hw, hnearest⟩ hr hn
  refine accepts_bind accepts_peek ?_
  cases hw with
  | function inner =>
    rw [if_pos (next_eq starts_function inner).1]
    exact h ⟨.inl inner, hnearest⟩ hr hn
  | @forward x x' x'' w header' header =>
    rw [append_assoc, if_pos (next_eq starts_head header).1, ← append_assoc]
    exact h ⟨.inr ⟨.forward header, _, rfl⟩, hnearest⟩ hr hn
  | vars inner =>
    rw [if_neg (by rw [(next_eq starts_vars inner).1]; decide)]
    exact vars_complete n inner trivial hn

theorem definitionOf_complete :
    Complete IsDefinition (fun _ t => t ≠ .symbol .semicolon) (definitionOf definition)
      (n + 1) := by
  rintro w d r ⟨hw, hnearest⟩ hr hn
  rcases hw with hfunction | ⟨hlocal, header, rfl⟩
  · obtain @⟨x, w, v, u, z, header', ds, ss, closed, header, locals, body, closing⟩ := hfunction
    simp only [length_append, length_cons] at hn
    rw [append_assoc, cons_append, append_assoc, append_assoc]
    have hbody : front (u ++ (z ++ r)) = .keyword .begin :=
      (next_eq starts_between body).1
    have hforward : front (v ++ (u ++ (z ++ r))) ≠ .keyword .forward := by
      cases locals with
      | nil =>
        rw [nil_append, hbody]
        decide
      | cons head tail =>
        rw [append_assoc]
        rcases (next_eq starts_local head).1 with heq | heq <;> rw [heq] <;> decide
    refine accepts_bind (header_accepts header) ?_
    refine accepts_bind (accepts_expect nofun) ?_
    refine accepts_bind (accepts_accept_other hforward) ?_
    refine accepts_bind (many_complete (local_complete h) (starts_local.and _)
      (fun t ht => decide_eq_true ht) (fun d t ht => ?_)
      (locals.of_forall (Decl.allNearestElse_iff.mp hnearest.1)) ?_ ?_) ?_
    · rcases ht with rfl | rfl <;> decide
    · rw [hbody]
      exact ⟨by decide, fun _ => by decide⟩
    · omega
    · exact accepts_bind (body_accepts body hnearest.2 closing hr) accepts_newDecl
  · cases hlocal with
    | function inner => cases inner
    | forward header =>
      simp only [append_assoc, cons_append, nil_append]
      refine accepts_bind (header_accepts header) ?_
      refine accepts_bind (accepts_expect nofun) ?_
      refine accepts_bind (accepts_accept nofun) ?_
      exact accepts_bind (accepts_expect nofun) accepts_newDecl
    | vars inner => cases inner

end Definition

theorem definition_complete (n : Nat) :
    Complete IsDefinition (fun _ t => t ≠ .symbol .semicolon) definition n :=
  complete_of_succ (fun _ h => definition_eq ▸ definitionOf_complete h) n

theorem program_accepts {d : Decl} (hw : Grammar.Function w d) (hnearest : d.NearestElse) :
    Accepts program (w ++ [⟨.eof, x⟩]) (d, [⟨.eof, x⟩]) := by
  refine accepts_bind accepts_location ?_
  refine accepts_bind (definition_complete _ ⟨.inl hw, hnearest⟩
    (by decide : eof ≠ .symbol .semicolon) (Nat.lt_succ_self _)) ?_
  cases hw
  exact accepts_bind accepts_isForward (accepts_bind accepts_peek accepts_pure)

end Phrase

/-- What the grammar derives is read, in the tree whose `else` parts belong to the nearest open
`if`. -/
theorem Grammar.Program.read_eq {lexemes : List Lexeme} {tree : Decl}
    (h : Grammar.Program lexemes tree) (hnearest : tree.NearestElse) :
    (Decl.read lexemes).1 = .ok tree := by
  obtain @⟨x, w, _, definition⟩ := h
  have hclosed : closed (w ++ [⟨.eof, x⟩]) = w ++ [⟨.eof, x⟩] := by simp [closed]
  obtain ⟨r, -, hgives⟩ := Phrase.program_accepts (x := x) definition hnearest
    (.start (w ++ [⟨.eof, x⟩])) ((Lexemes.items_start _).trans hclosed)
  obtain ⟨completed, hrun⟩ := hgives []
  rw [Decl.read, hrun]
  rfl

end BlockLang
