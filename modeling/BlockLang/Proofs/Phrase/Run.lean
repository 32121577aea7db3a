import BlockLang.Phrase.Program

/-!
# What readers do to lexemes

A reader leads to a condition if it holds of whatever the reader gives and of the lexemes that it
leaves; it accepts a row of lexemes if it gives a value on it. Both are carried through sequences,
repetitions and recursion.
-/

namespace BlockLang

/-- What is noted while trees are built. -/
abbrev Completed := List CompletedDefinition

namespace Parse

variable {α β : Type} {x : Parse Completed α} {f : α → Parse Completed β} {a : α} {b : β}

/-- Some run gives a value. -/
def Returns (x : Parse Completed α) (a : α) : Prop := ∃ notes notes', x notes = (.ok a, notes')

theorem eq_of_returns_pure {a' : α} (h : Returns (pure a : Parse Completed α) a') : a' = a := by
  obtain ⟨notes, notes', h⟩ := h
  exact (Except.ok.inj (congrArg Prod.fst h)).symm

theorem exists_of_returns_bind (h : Returns (x >>= f) b) :
    ∃ a, Returns x a ∧ Returns (f a) b := by
  obtain ⟨notes, notes', h⟩ := h
  change ExceptT.bindCont f (x notes).1 (x notes).2 = _ at h
  rcases hx : x notes with ⟨_ | a, c⟩
  · rw [hx] at h
    cases h
  · rw [hx] at h
    exact ⟨a, ⟨notes, c, hx⟩, c, notes', h⟩

theorem not_returns_throw {e : SyntaxError} : ¬ Returns (throw e : Parse Completed α) a := by
  rintro ⟨notes, notes', h⟩
  cases h

/-- Every run gives a value, and this one. -/
def Gives (x : Parse Completed α) (a : α) : Prop := ∀ notes, ∃ notes', x notes = (.ok a, notes')

theorem gives_pure : Gives (pure a : Parse Completed α) a := fun notes => ⟨notes, rfl⟩

theorem gives_bind (hx : Gives x a) (hf : Gives (f a) b) : Gives (x >>= f) b := by
  intro notes
  obtain ⟨notes1, hx⟩ := hx notes
  obtain ⟨notes2, hf⟩ := hf notes1
  refine ⟨notes2, ?_⟩
  change ExceptT.bindCont f (x notes).1 (x notes).2 = _
  rw [hx]
  exact hf

/-- What every run gives is all that a run can give. -/
theorem Gives.eq_of_returns {a' : α} (h : Gives x a) (h' : Returns x a') : a' = a := by
  obtain ⟨notes, notes', h'⟩ := h'
  obtain ⟨_, h⟩ := h notes
  exact Except.ok.inj (congrArg Prod.fst (h'.symm.trans h))

end Parse

open Parse

namespace Lexemes

/-- What is left to read. -/
def items (l : Lexemes) : List Lexeme := l.tokens.toList.drop l.cursor

variable {l : Lexemes} {x : Lexeme} {rest : List Lexeme}

theorem items_eq_cons (l : Lexemes) :
    l.items = l.next :: l.tokens.toList.drop (l.cursor + 1) := List.drop_eq_getElem_cons l.cursor_lt

@[simp] theorem items_start (lexemes : List Lexeme) : (start lexemes).items = closed lexemes := rfl

theorem next_eq_of_items (h : l.items = x :: rest) : l.next = x :=
  (List.cons.inj (l.items_eq_cons.symm.trans h)).1

theorem count_eq (l : Lexemes) : l.count = l.items.length := List.length_drop.symm

@[simp] theorem nth_zero (l : Lexemes) : l.nth 0 = l.next.token := by
  have hlt := l.cursor_lt
  have hmin : min (l.cursor + 0) (l.tokens.size - 1) = l.cursor := by omega
  simp only [nth, next, hmin]

theorem tail_of_ne (h : l.next.token ≠ .eof) :
    l.tail.tokens = l.tokens ∧ l.tail.cursor = l.cursor + 1 := by
  rw [tail, dif_neg h]
  exact ⟨rfl, rfl⟩

/-- Another lexeme follows one that is not the end mark. -/
theorem nth_one (h : l.next.token ≠ .eof) : l.nth 1 = l.tail.next.token := by
  obtain ⟨htokens, hcursor⟩ := tail_of_ne h
  have hlt := l.tail.cursor_lt
  rw [htokens, hcursor] at hlt
  have hmin : min (l.cursor + 1) (l.tokens.size - 1) = l.cursor + 1 := by omega
  simp only [nth, next, hmin, htokens, hcursor]

theorem prev_tail (h : l.next.token ≠ .eof) : l.tail.prev = l.next := by
  obtain ⟨htokens, hcursor⟩ := tail_of_ne h
  simp only [prev, next, htokens, hcursor, Nat.add_sub_cancel]

theorem items_eq_next_cons (h : l.next.token ≠ .eof) : l.items = l.next :: l.tail.items := by
  obtain ⟨htokens, hcursor⟩ := tail_of_ne h
  rw [l.items_eq_cons, items, htokens, hcursor]

theorem tail_items (h : l.items = x :: rest) (hx : x.token ≠ .eof) : l.tail.items = rest := by
  have hne : l.next.token ≠ .eof := by rwa [next_eq_of_items h]
  exact (List.cons.inj ((items_eq_next_cons hne).symm.trans h)).2

end Lexemes

namespace Phrase

variable {α β : Type}

/-! ### Whatever a reader gives -/

section Leads

variable {x : Phrase Completed α} {l : Lexemes} {t : Token} {P : α → Lexemes → Prop}
  {Q : β → Lexemes → Prop}

/-- Whatever a reader gives meets a condition, together with the lexemes that are left. -/
def Leads (x : Phrase Completed α) (l : Lexemes) (P : α → Lexemes → Prop) : Prop :=
  ∀ a r, Returns (x l) (a, r) → P a r

theorem Leads.imp {P' : α → Lexemes → Prop} (h : Leads x l P) (himp : ∀ a r, P a r → P' a r) :
    Leads x l P' := fun a r ha => himp a r (h a r ha)

theorem leads_bind {f : α → Phrase Completed β} (hx : Leads x l P)
    (hf : ∀ a r, P a r → Leads (f a) r Q) : Leads (x >>= f) l Q := by
  intro b r hb
  obtain ⟨⟨a, r'⟩, ha, hb⟩ := exists_of_returns_bind hb
  exact hf a r' (hx a r' ha) b r hb

theorem leads_fail {wanted : Expected} : Leads (fail wanted) l P :=
  fun _ _ h => absurd h not_returns_throw

theorem leads_peek : Leads peek l fun t r => t = l.next.token ∧ r = l := by
  intro t r h
  cases eq_of_returns_pure h
  exact ⟨l.nth_zero, rfl⟩

theorem leads_location :
    Leads location l fun x r => x = l.next.location ∧ r = l := by
  intro x r h
  cases eq_of_returns_pure h
  exact ⟨rfl, rfl⟩

theorem leads_of_gives {a : α} {r : Lexemes} (h : Gives (x l) (a, r)) :
    Leads x l fun b r' => b = a ∧ r' = r := by
  intro b r' hb
  cases h.eq_of_returns hb
  exact ⟨rfl, rfl⟩

end Leads

/-! ### What a reader is sure to give -/

section Gives

variable {l r : Lexemes} {x : Location} {a : α}

theorem gives_bind {y : Phrase Completed α} {f : α → Phrase Completed β} {b : β × Lexemes}
    (hy : Gives (y l) (a, r)) (hf : Gives (f a r) b) : Gives ((y >>= f) l) b :=
  Parse.gives_bind hy hf

theorem gives_peek : Gives (peek l) (l.next.token, l) := by
  rw [← l.nth_zero]
  exact gives_pure

theorem gives_location : Gives (location l) (l.next.location, l) := gives_pure

theorem gives_newExpr {node : ExprNode Expr} : Gives (newExpr node x l) (node.tree x, l) :=
  fun notes => ⟨notes, rfl⟩

variable {y : Phrase Completed (Option α)}

theorem gives_attempt (h : Gives (y l) (some a, r)) : Gives (attempt y l) (some a, r) := by
  intro notes
  obtain ⟨notes', hy⟩ := h notes
  refine ⟨notes', ?_⟩
  unfold attempt
  rw [hy]

theorem gives_attempt_none (h : Leads y l fun o _ => o = none) :
    Gives (attempt y l) (none, l) := by
  intro notes
  unfold attempt
  split
  · rename_i a rest notes' hy
    cases h (some a) rest ⟨notes, notes', hy⟩
  · exact ⟨_, rfl⟩

end Gives

/-! ### What a reader makes of lexemes -/

/-- The lexeme at the front of a list. -/
def head (items : List Lexeme) : Lexeme := items.headD ⟨.eof, .start⟩

/-- The token at the front of a list. -/
def front (items : List Lexeme) : Token := (head items).token

/-- From these lexemes a reader gives a value and leaves the others. -/
def Accepts (y : Phrase Completed α) (items : List Lexeme) (b : α × List Lexeme) : Prop :=
  ∀ l : Lexemes, l.items = items → ∃ r : Lexemes, r.items = b.2 ∧ Gives (y l) (b.1, r)

section Accepts

variable {l : Lexemes} {x : Location} {t : Token} {items rest : List Lexeme} {a : α}
  {b : β × List Lexeme}

@[simp] theorem front_cons : front (⟨t, x⟩ :: items) = t := rfl

theorem next_eq_head (h : l.items = items) : l.next = head items := by
  rw [← h, l.items_eq_cons]
  rfl

theorem nth_eq_front (h : l.items = items) : l.nth 0 = front items := by
  rw [l.nth_zero, next_eq_head h, front]

theorem accepts_of_gives {y : Phrase Completed α}
    (h : ∀ l : Lexemes, l.items = items → Gives (y l) (a, l)) :
    Accepts y items (a, items) := fun l hl => ⟨l, hl, h l hl⟩

theorem leads_of_accepts {y : Phrase Completed α} (h : Accepts y items (a, rest))
    (hl : l.items = items) : Leads y l fun a' r => a' = a ∧ r.items = rest := by
  obtain ⟨r, hr, hgives⟩ := h l hl
  intro a' r' hreturns
  cases hgives.eq_of_returns hreturns
  exact ⟨rfl, hr⟩

theorem accepts_bind {y : Phrase Completed α} {f : α → Phrase Completed β}
    (hy : Accepts y items (a, rest)) (hf : Accepts (f a) rest b) : Accepts (y >>= f) items b := by
  intro l hl
  obtain ⟨r, hr, hy⟩ := hy l hl
  obtain ⟨r', hr', hf⟩ := hf r hr
  exact ⟨r', hr', gives_bind hy hf⟩

theorem accepts_pure : Accepts (pure a) items (a, items) := accepts_of_gives fun _ _ => gives_pure

theorem accepts_peek : Accepts peek items (front items, items) := by
  refine accepts_of_gives fun l hl => ?_
  rw [front, ← next_eq_head hl]
  exact gives_peek

theorem accepts_peekSecond (ht : t ≠ .eof) :
    Accepts peekSecond (⟨t, x⟩ :: items) (front items, ⟨t, x⟩ :: items) := by
  refine accepts_of_gives fun l hl => ?_
  have hne : l.next.token ≠ .eof := by rwa [Lexemes.next_eq_of_items hl]
  rw [front, ← next_eq_head (Lexemes.tail_items hl ht), ← Lexemes.nth_one hne]
  exact gives_pure

theorem accepts_location : Accepts location items ((head items).location, items) := by
  refine accepts_of_gives fun l hl => ?_
  rw [← next_eq_head hl]
  exact gives_location

theorem accepts_advance (ht : t ≠ .eof) :
    Accepts advance (⟨t, x⟩ :: items) (⟨t, x⟩, items) := by
  intro l hl
  have hnext := Lexemes.next_eq_of_items hl
  have hne : l.next.token ≠ .eof := by rwa [hnext]
  refine ⟨l.tail, Lexemes.tail_items hl ht, ?_⟩
  rw [← hnext, ← Lexemes.prev_tail hne]
  exact gives_pure

theorem accepts_skip (ht : t ≠ .eof) : Accepts skip (⟨t, x⟩ :: items) ((), items) :=
  accepts_bind (f := fun _ => pure ()) (accepts_advance ht) accepts_pure

theorem accepts_accept (ht : t ≠ .eof) : Accepts (accept t) (⟨t, x⟩ :: items) (true, items) := by
  refine accepts_bind accepts_peek ?_
  rw [front_cons, if_pos rfl]
  exact accepts_bind (accepts_skip ht) accepts_pure

theorem accepts_accept_other (ht : front items ≠ t) : Accepts (accept t) items (false, items) := by
  refine accepts_bind accepts_peek ?_
  rw [if_neg ht]
  exact accepts_pure

theorem accepts_expect (ht : t ≠ .eof) : Accepts (expect t) (⟨t, x⟩ :: items) ((), items) :=
  accepts_bind (accepts_accept ht) accepts_pure

theorem accepts_declaredName {f : String} :
    Accepts declaredName (⟨.name f, x⟩ :: items) ((f, x), items) := by
  refine accepts_bind accepts_peek (accepts_bind accepts_location ?_)
  exact accepts_bind (accepts_skip nofun) accepts_pure

theorem accepts_newExpr {node : ExprNode Expr} :
    Accepts (newExpr node x) items (node.tree x, items) := accepts_of_gives fun _ _ => gives_newExpr

theorem accepts_newStmt {node : StmtNode Expr Stmt} :
    Accepts (newStmt node x) items (node.tree x, items) :=
  accepts_of_gives fun _ _ notes => ⟨notes, rfl⟩

theorem accepts_newDecl {node : DeclNode Stmt Decl} :
    Accepts (newDecl node) items (node.tree, items) := by
  refine accepts_of_gives fun _ _ notes => ?_
  cases node <;> exact ⟨_, rfl⟩

theorem accepts_isForward {d : Decl} :
    Accepts (isForward d) items (Building.isForward ([] : Completed) d, items) :=
  accepts_of_gives fun _ _ notes => ⟨notes, rfl⟩

theorem accepts_attempt {y : Phrase Completed (Option α)} (h : Accepts y items (some a, rest)) :
    Accepts (attempt y) items (some a, rest) := by
  intro l hl
  obtain ⟨r, hr, hgives⟩ := h l hl
  exact ⟨r, hr, gives_attempt hgives⟩

/-- A reader passes nothing and makes an expression of two others. -/
def Makes (join : Expr → Expr → Phrase Completed Expr) (node : Expr → Expr → Expr) : Prop :=
  ∀ a b items, Accepts (join a b) items (node a b, items)

theorem makes_newExpr {node : Expr → Expr → ExprNode Expr} :
    Makes (fun a b => newExpr (node a b) x) fun a b => (node a b).tree x :=
  fun _ _ _ => accepts_newExpr

section Repetition

variable {more : Token → Bool} {item : Phrase Completed α} {as : List α} {rest' : List Lexeme}

theorem accepts_many_nil (h : more (front items) = false) :
    Accepts (many more item) items ([], items) := by
  refine accepts_of_gives fun l hl => ?_
  rw [many, nth_eq_front hl, h, if_neg Bool.false_ne_true]
  exact gives_pure

theorem accepts_many_cons (h : more (front items)) (hitem : Accepts item items (a, rest))
    (hlt : rest.length < items.length) (hrest : Accepts (many more item) rest (as, rest')) :
    Accepts (many more item) items (a :: as, rest') := by
  intro l hl
  obtain ⟨r, hr, hitem⟩ := hitem l hl
  obtain ⟨r', hr', hrest⟩ := hrest r hr
  refine ⟨r', hr', ?_⟩
  rw [many, nth_eq_front hl, if_pos h]
  refine Parse.gives_bind hitem ?_
  dsimp only
  rw [if_pos (by rwa [l.count_eq, r.count_eq, hl, hr])]
  exact Parse.gives_bind hrest gives_pure

variable {ω : Type} {operator? : Token → Option ω} {join : ω → α → α → Phrase Completed α}
  {a' e : α} {o : ω} {b : α × List Lexeme}

theorem accepts_chain_none (h : operator? (front items) = none) :
    Accepts (chain item operator? join a) items (a, items) := by
  refine accepts_of_gives fun l hl => ?_
  rw [chain, nth_eq_front hl, h]
  exact gives_pure

theorem accepts_chain_some (h : operator? t = some o) (ht : t ≠ .eof)
    (hitem : Accepts item items (a', rest)) (hjoin : Accepts (join o a a') rest (e, rest))
    (hle : rest.length ≤ items.length) (hrest : Accepts (chain item operator? join e) rest b) :
    Accepts (chain item operator? join a) (⟨t, x⟩ :: items) b := by
  intro l hl
  obtain ⟨r1, hr1, hitem⟩ := hitem l.tail (Lexemes.tail_items hl ht)
  obtain ⟨r2, hr2, hjoin⟩ := hjoin r1 hr1
  obtain ⟨r3, hr3, hrest⟩ := hrest r2 hr2
  refine ⟨r3, hr3, ?_⟩
  rw [chain, nth_eq_front hl, front_cons, h]
  refine Parse.gives_bind hitem (Parse.gives_bind hjoin ?_)
  have hlt : r2.count < l.count := by
    rw [l.count_eq, r2.count_eq, hl, hr2]
    exact Nat.lt_succ_of_le hle
  dsimp only
  rw [if_pos hlt]
  exact hrest

end Repetition

end Accepts

end Phrase

end BlockLang
