import BlockLang.Proofs.Grammar.Basic
import BlockLang.Proofs.Phrase.Run
import BlockLang.Proofs.Tree.Node

/-!
# Readings side by side

A phrase is read twice, once into a tree and once with other notes, from lexemes that cannot be
told apart. A coupling says how the notes go together. It is kept by sequences, repetitions and
recursion: both readings are refused for the same reason, or both give what was made in the same
way. On the way it is followed what kind of phrase has been passed.
-/

namespace BlockLang

open Building Grammar List Phrase

variable {B ε σ δ : Type}

namespace Lexemes

variable {l m : Lexemes} {t : Token} {v : List Lexeme}

theorem items_eq_append (hl : l.next.token = t) (ht : t ≠ .eof) :
    l.items = [⟨t, l.next.location⟩] ++ l.tail.items := by
  subst hl
  exact items_eq_next_cons ht

theorem count_le (h : l.items = v ++ m.items) : m.count ≤ l.count := by
  rw [l.count_eq, m.count_eq, h, length_append]
  exact Nat.le_add_left ..

theorem count_tail_lt (hl : l.next.token = t) (ht : t ≠ .eof) : l.tail.count < l.count := by
  rw [l.count_eq, l.tail.count_eq, items_eq_append hl ht]
  exact Nat.lt_succ_self _

end Lexemes

/-- Which lexemes cannot be told apart by reading them. -/
structure Likeness where
  Near : Lexemes → Lexemes → Prop
  next_eq : ∀ {l l'}, Near l l' → l'.next = l.next
  near_tail : ∀ {l l'}, Near l l' → l.next.token ≠ .eof → Near l.tail l'.tail
  count_lt_iff : ∀ {l l' m m'}, Near l l' → Near m m' → (m'.count < l'.count ↔ m.count < l.count)

/-- Lexemes cannot be told apart from themselves. -/
def Likeness.refl : Likeness where
  Near l l' := l' = l
  next_eq h := by rw [h]
  near_tail h _ := by rw [h]
  count_lt_iff h h' := by rw [h, h']

/-- How other notes go together with those that are kept while a tree is built. -/
structure Coupling (B : Type) [Building B ε σ δ] extends Likeness where
  /-- Between two moments, these parts have been made on both sides. Each is there to be used
  once. -/
  Made : List (Part (Expr × ε) (Stmt × σ) (Decl × δ)) → Completed × B → Completed × B → Prop
  made_nil : ∀ s, Made [] s s
  made_append : ∀ {ps qs s s1 s2}, Made ps s s1 → Made qs s1 s2 → Made (ps ++ qs) s s2
  made_value : ∀ {use e s s'}, use ≠ .condition → Made [.expr use e] s s' →
    Made [.expr .value e] s s'
  made_expr : ∀ {use s s1} (node : ExprNode (Expr × ε)) (x : Location), node.Fits use →
    Made (node.parts use) s s1 →
      Made [.expr use ((node.map Prod.fst).tree x, (expr (node.map Prod.snd) x s1.2).1)] s
        (s1.1, (expr (node.map Prod.snd) x s1.2).2)
  made_stmt : ∀ {s s1} (node : StmtNode (Expr × ε) (Stmt × σ)) (x : Location),
    Made node.parts s s1 →
      Made [.stmt ((node.map Prod.fst Prod.fst).tree x,
        (stmt (node.map Prod.snd Prod.snd) x s1.2).1)] s
        (s1.1, (stmt (node.map Prod.snd Prod.snd) x s1.2).2)
  made_decl : ∀ {s s1} (node : DeclNode (Stmt × σ) (Decl × δ)), node.Positive →
    Made node.parts s s1 →
      Made [.decl ((node.map Prod.fst Prod.fst).tree,
        (decl (node.map Prod.snd Prod.snd) s1.2).1)] s
        ((decl (node.map Prod.fst Prod.fst) s1.1).2,
          (decl (node.map Prod.snd Prod.snd) s1.2).2)
  isForward_eq : ∀ {d s s'}, Made [.decl d] s s' →
    isForward s'.2 d.2 = isForward s'.1 d.1
  made_giveUp : ∀ {ps s s'}, Made ps s s' → Made [] s (s'.1, giveUp s.2 s'.2)

namespace Coupling

variable [Building B ε σ δ] (c : Coupling B) {α β α' β' ω π : Type}

/-- Parts that have been made on both sides. -/
abbrev Parts (_ : Coupling B) : Type := List (Part (Expr × ε) (Stmt × σ) (Decl × δ))

/-- A condition on what two readings give, the parts that were made for it, and the lexemes that
were passed and that are left. -/
abbrev Post (α β : Type) : Type := α → β → c.Parts → List Lexeme → Lexemes → Prop

/-- The outcomes of two readings that started at the lexemes `l` with the notes `s`: they are
refused alike, or both have given something. -/
inductive Outcome (l : Lexemes) (s : Completed × B) (P : c.Post α β) :
    Except SyntaxError (α × Lexemes) × Completed → Except SyntaxError (β × Lexemes) × B → Prop
  | ok {a b ps v m m' n n'} (holds : P a b ps v m) (made : c.Made ps s (n, n'))
      (near : c.Near m m') (passed : l.items = v ++ m.items) :
      Outcome l s P (.ok (a, m), n) (.ok (b, m'), n')
  | error {e ps n n'} (made : c.Made ps s (n, n')) : Outcome l s P (.error e, n) (.error e, n')

/-- Two readers go together from the lexemes `l`, after the lexemes `w` have been passed and the
parts `ps` have been made. -/
def Follows (w : List Lexeme) (l : Lexemes) (ps : c.Parts) (x : Phrase Completed α)
    (y : Phrase B β) (P : c.Post α β) : Prop :=
  ∀ s0 s l', c.Made ps s0 s → c.Near l l' →
    c.Outcome l s0 (fun a b qs v => P a b qs (w ++ v)) (x l s.1) (y l' s.2)

/-- Two readers go together from fewer than `n` lexemes. -/
def Agrees (n : Nat) (x : Phrase Completed α) (y : Phrase B β) (P : c.Post α β) : Prop :=
  ∀ l : Lexemes, l.count < n → c.Follows [] l [] x y P

/-- What was given is related, and the lexemes that were passed are a phrase of a kind. -/
def Reads (R : α → β → List π → Prop) (K : List Lexeme → α → Prop) (a : α) (b : β) (ps : List π)
    (v : List Lexeme) (_ : Lexemes) : Prop := R a b ps ∧ K v a

/-- One part has been made. -/
abbrev Single (part : α × β → π) := Reads fun a b ps => ps = [part (a, b)]

/-- The same has been read, and no part has been made. -/
abbrev Plain := Reads (π := π) fun (a b : α) ps => a = b ∧ ps = []

/-- The items of two lists have been read one beside the other. -/
inductive Each (R : α → β → List π → Prop) : List α → List β → List π → Prop
  | nil : Each R [] [] []
  | cons {a b as bs ps qs} (head : R a b ps) (tail : Each R as bs qs) :
      Each R (a :: as) (b :: bs) (ps ++ qs)

theorem Each.exists_zip {part : α × β → π} {as : List α} {bs : List β} {ps : List π}
    (h : Each (fun a b ps => ps = [part (a, b)]) as bs ps) :
    ∃ zs : List (α × β), as = zs.map Prod.fst ∧ bs = zs.map Prod.snd ∧ ps = zs.map part := by
  induction h with
  | nil => exact ⟨[], rfl, rfl, rfl⟩
  | @cons a b _ _ _ _ head _ ih =>
    obtain ⟨zs, rfl, rfl, rfl⟩ := ih
    exact ⟨(a, b) :: zs, rfl, rfl, by rw [head]; rfl⟩

theorem Each.plain {as bs : List α} {ps : List π}
    (h : Each (fun a b ps => a = b ∧ ps = []) as bs ps) : as = bs ∧ ps = [] := by
  induction h with
  | nil => exact ⟨rfl, rfl⟩
  | cons head _ ih =>
    obtain ⟨rfl, rfl⟩ := head
    obtain ⟨rfl, rfl⟩ := ih
    exact ⟨rfl, rfl⟩

variable {c} {P P' : c.Post α β} {Q : c.Post α' β'} {ps : c.Parts} {x : Phrase Completed α}
  {y : Phrase B β} {f : α → Phrase Completed α'} {g : β → Phrase B β'} {l m : Lexemes}
  {v w : List Lexeme} {t : Token} {n : Nat}

/-! ### Sequences -/

theorem Outcome.bind {s0 s : Completed × B} {x : Parse Completed (α × Lexemes)}
    {y : Parse B (β × Lexemes)} {f : α × Lexemes → Parse Completed (α' × Lexemes)}
    {g : β × Lexemes → Parse B (β' × Lexemes)} (h : c.Outcome l s0 P (x s.1) (y s.2))
    (hnext : ∀ a b qs v m m' s', P a b qs v m → c.Made qs s0 s' → c.Near m m' →
      l.items = v ++ m.items → c.Outcome l s0 Q (f (a, m) s'.1) (g (b, m') s'.2)) :
    c.Outcome l s0 Q ((x >>= f) s.1) ((y >>= g) s.2) := by
  change c.Outcome l s0 Q (ExceptT.bindCont f (x s.1).1 (x s.1).2)
    (ExceptT.bindCont g (y s.2).1 (y s.2).2)
  generalize x s.1 = first at h ⊢
  generalize y s.2 = second at h ⊢
  cases h with
  | ok holds made near passed => exact hnext _ _ _ _ _ _ (_, _) holds made near passed
  | error made => exact .error made

/-- An outcome, seen from an earlier moment. -/
theorem Outcome.imp {s s0 : Completed × B} {u : Except SyntaxError (α × Lexemes) × Completed}
    {u' : Except SyntaxError (β × Lexemes) × B} (h : c.Outcome m s P u u')
    (hl : l.items = v ++ m.items) (hmade : c.Made ps s0 s)
    (himp : ∀ a b qs z r, P a b qs z r → P' a b (ps ++ qs) (v ++ z) r) :
    c.Outcome l s0 P' u u' := by
  cases h with
  | ok holds made near passed =>
    exact .ok (himp _ _ _ _ _ holds) (c.made_append hmade made) near
      (by rw [hl, passed, append_assoc])
  | error made => exact .error (c.made_append hmade made)

theorem Follows.bind (hx : c.Follows [] l [] x y P)
    (hnext : ∀ a b qs v m, P a b qs v m → l.items = v ++ m.items →
      c.Follows (w ++ v) m (ps ++ qs) (f a) (g b) Q) : c.Follows w l ps (x >>= f) (y >>= g) Q := by
  intro s0 s l' hmade hl
  have hfirst := hx s s l' (c.made_nil s) hl
  refine Outcome.bind (P := fun a b qs v m => ∃ qs', qs = ps ++ qs' ∧ P a b qs' v m) (x := x l)
    (y := y l') (hfirst.imp (v := []) rfl hmade fun a b qs v m hP => ⟨qs, rfl, hP⟩) ?_
  rintro a b _ v m m' s' ⟨qs, rfl, hP⟩ hmade' hm hpassed
  refine (hnext a b qs v m hP hpassed s0 s' m' hmade' hm).imp hpassed (c.made_nil s0) ?_
  intro _ _ _ z _ hQ
  rw [← append_assoc]
  exact hQ

theorem Follows.imp (h : c.Follows w l ps x y P)
    (himp : ∀ a b qs v m, P a b qs v m → P' a b qs v m) : c.Follows w l ps x y P' :=
  fun s0 s l' hmade hl => (h s0 s l' hmade hl).imp (v := []) rfl (c.made_nil s0)
    fun a b qs v m => himp a b qs (w ++ v) m

theorem Follows.plain {K : List Lexeme → α → Prop} {y : Phrase B α} {g : α → Phrase B β'}
    (hx : c.Follows [] l [] x y (Plain K))
    (hnext : ∀ a v m, K v a → l.items = v ++ m.items → c.Follows (w ++ v) m ps (f a) (g a) Q) :
    c.Follows w l ps (x >>= f) (y >>= g) Q := by
  refine hx.bind ?_
  rintro a _ _ v m ⟨⟨rfl, rfl⟩, hK⟩ hm
  rw [append_nil]
  exact hnext a v m hK hm

theorem Follows.value {use : Use} {x : Phrase Completed Expr} {y : Phrase B ε}
    {K : List Lexeme → Expr → Prop} (h : c.Follows w l ps x y (Single (.expr use) K))
    (huse : use ≠ .condition) : c.Follows w l ps x y (Single (.expr .value) K) := by
  intro s0 s l' hmade hl
  have hrun := h s0 s l' hmade hl
  generalize x l s.1 = u at hrun ⊢
  generalize y l' s.2 = u' at hrun ⊢
  cases hrun with
  | ok holds made near passed =>
    obtain ⟨rfl, hK⟩ := holds
    exact .ok ⟨rfl, hK⟩ (c.made_value huse made) near passed
  | error made => exact .error made

theorem follows_pure {a : α} {b : β} (h : P a b ps w l) : c.Follows w l ps (pure a) (pure b) P :=
  fun _ _ _ hmade hl => .ok (v := []) ((append_nil w).symm ▸ h) hmade hl rfl

theorem follows_throw {e : SyntaxError} : c.Follows w l ps (throw e) (throw e) P :=
  fun _ _ _ hmade _ => .error hmade

theorem follows_fail {wanted : Expected} :
    c.Follows w l ps (fail wanted) (fail wanted) P := by
  intro s0 s l' hmade hl
  unfold fail
  rw [Lexemes.nth_zero, Lexemes.nth_zero, c.next_eq hl]
  exact .error hmade

/-! ### Single lexemes -/

section Lexeme

variable {f : Token → Phrase Completed α} {g : Token → Phrase B β}

theorem follows_peek (h : c.Follows w l ps (f l.next.token) (g l.next.token) P) :
    c.Follows w l ps (peek >>= f) (peek >>= g) P := by
  intro s0 s l' hmade hl
  change c.Outcome _ _ _ (f (l.nth 0) l s.1) (g (l'.nth 0) l' s.2)
  rw [l.nth_zero, l'.nth_zero, c.next_eq hl]
  exact h s0 s l' hmade hl

theorem follows_peekSecond (hl : l.next.token = t) (ht : t ≠ .eof)
    (h : c.Follows w l ps (f l.tail.next.token) (g l.tail.next.token) P) :
    c.Follows w l ps (peekSecond >>= f) (peekSecond >>= g) P := by
  intro s0 s l' hmade hl'
  have hne : l.next.token ≠ .eof := hl ▸ ht
  change c.Outcome _ _ _ (f (l.nth 1) l s.1) (g (l'.nth 1) l' s.2)
  rw [Lexemes.nth_one hne, Lexemes.nth_one (by rwa [c.next_eq hl']), c.next_eq
    (c.near_tail hl' hne)]
  exact h s0 s l' hmade hl'

theorem follows_location {f : Location → Phrase Completed α} {g : Location → Phrase B β}
    (h : c.Follows w l ps (f l.next.location) (g l.next.location) P) :
    c.Follows w l ps (location >>= f) (location >>= g) P := by
  intro s0 s l' hmade hl
  change c.Outcome _ _ _ (f l.next.location l s.1) (g l'.next.location l' s.2)
  rw [c.next_eq hl]
  exact h s0 s l' hmade hl

theorem follows_advance {f : Lexeme → Phrase Completed α} {g : Lexeme → Phrase B β}
    (hl : l.next.token = t) (ht : t ≠ .eof)
    (h : c.Follows (w ++ [⟨t, l.next.location⟩]) l.tail ps (f ⟨t, l.next.location⟩)
      (g ⟨t, l.next.location⟩) P) :
    c.Follows w l ps (advance >>= f) (advance >>= g) P := by
  intro s0 s l' hmade hl'
  have hne : l.next.token ≠ .eof := hl ▸ ht
  have hnext : l.next = ⟨t, l.next.location⟩ := by rw [← hl]
  change c.Outcome _ _ _ (f l.tail.prev l.tail s.1) (g l'.tail.prev l'.tail s.2)
  rw [Lexemes.prev_tail hne, Lexemes.prev_tail (by rwa [c.next_eq hl']), c.next_eq hl', hnext]
  refine (h s0 s l'.tail hmade (c.near_tail hl' hne)).imp (Lexemes.items_eq_append hl ht)
    (c.made_nil s0) fun _ _ _ z _ hP => ?_
  rw [← append_assoc]
  exact hP

theorem follows_skip {f : Unit → Phrase Completed α} {g : Unit → Phrase B β}
    (hl : l.next.token = t) (ht : t ≠ .eof)
    (h : c.Follows (w ++ [⟨t, l.next.location⟩]) l.tail ps (f ()) (g ()) P) :
    c.Follows w l ps (skip >>= f) (skip >>= g) P :=
  follows_advance (f := fun _ => f ()) (g := fun _ => g ()) hl ht h

theorem follows_accept {f : Bool → Phrase Completed α} {g : Bool → Phrase B β} (ht : t ≠ .eof)
    (hyes : l.next.token = t →
      c.Follows (w ++ [⟨t, l.next.location⟩]) l.tail ps (f true) (g true) P)
    (hno : l.next.token ≠ t → c.Follows w l ps (f false) (g false) P) :
    c.Follows w l ps (accept t >>= f) (accept t >>= g) P := by
  unfold accept
  rw [bind_assoc, bind_assoc]
  refine follows_peek ?_
  by_cases heq : l.next.token = t
  · rw [if_pos heq, if_pos heq, bind_assoc, bind_assoc]
    exact follows_skip heq ht (hyes heq)
  · rw [if_neg heq, if_neg heq]
    exact hno heq

theorem follows_expect {f : Unit → Phrase Completed α} {g : Unit → Phrase B β} (ht : t ≠ .eof)
    (h : l.next.token = t → c.Follows (w ++ [⟨t, l.next.location⟩]) l.tail ps (f ()) (g ()) P) :
    c.Follows w l ps (expect t >>= f) (expect t >>= g) P := by
  unfold expect
  rw [bind_assoc, bind_assoc]
  refine follows_accept ht h fun _ => Follows.bind (P := fun _ _ _ _ _ => False) follows_fail ?_
  exact fun _ _ _ _ _ => False.elim

theorem follows_declaredName {f : String × Location → Phrase Completed α}
    {g : String × Location → Phrase B β}
    (h : ∀ x, l.next.token = .name x → c.Follows (w ++ [⟨.name x, l.next.location⟩]) l.tail ps
      (f (x, l.next.location)) (g (x, l.next.location)) P) :
    c.Follows w l ps (declaredName >>= f) (declaredName >>= g) P := by
  unfold declaredName
  rw [bind_assoc, bind_assoc]
  refine follows_peek ?_
  split
  · rename_i x hx
    rw [bind_assoc, bind_assoc]
    refine follows_location ?_
    rw [bind_assoc, bind_assoc]
    exact follows_skip hx nofun (h x hx)
  · exact Follows.bind (P := fun _ _ _ _ _ => False) follows_fail fun _ _ _ _ _ => False.elim

end Lexeme

/-! ### Making nodes -/

theorem follows_newExpr {use : Use} {z : Location} {K : List Lexeme → Expr → Prop}
    (node : ExprNode (Expr × ε)) (hfits : node.Fits use) (hps : ps = node.parts use)
    (h : K w ((node.map Prod.fst).tree z)) :
    c.Follows w l ps (newExpr (node.map Prod.fst) z) (newExpr (node.map Prod.snd) z)
      (Single (.expr use) K) := by
  subst hps
  exact fun _ _ _ hmade hl =>
    .ok (v := []) ⟨rfl, (append_nil w).symm ▸ h⟩ (c.made_expr node z hfits hmade) hl rfl

theorem follows_newStmt {z : Location} {P : c.Post Stmt σ} (node : StmtNode (Expr × ε) (Stmt × σ))
    (hps : ps = node.parts)
    (h : ∀ b, P ((node.map Prod.fst Prod.fst).tree z) b
      [.stmt ((node.map Prod.fst Prod.fst).tree z, b)] w l) :
    c.Follows w l ps (newStmt (node.map Prod.fst Prod.fst) z)
      (newStmt (node.map Prod.snd Prod.snd) z) P := by
  subst hps
  exact fun _ _ _ hmade hl =>
    .ok (v := []) ((append_nil w).symm ▸ h _) (c.made_stmt node z hmade) hl rfl

theorem follows_newDecl {K : List Lexeme → Decl → Prop} (node : DeclNode (Stmt × σ) (Decl × δ))
    (hpositive : node.Positive) (hps : ps = node.parts)
    (h : K w (node.map Prod.fst Prod.fst).tree) :
    c.Follows w l ps (newDecl (node.map Prod.fst Prod.fst))
      (newDecl (node.map Prod.snd Prod.snd)) (Single .decl K) := by
  subst hps
  intro _ _ _ hmade hl
  have hmade' := c.made_decl node hpositive hmade
  cases node <;> exact .ok (v := []) ⟨rfl, (append_nil w).symm ▸ h⟩ hmade' hl rfl

theorem follows_isForward {d : Decl} {d' : δ} {f : Bool → Phrase Completed α}
    {g : Bool → Phrase B β}
    (h : ∀ b, (b = true ↔ ∃ h, d = .forward h) → c.Follows w l [.decl (d, d')] (f b) (g b) P) :
    c.Follows w l [.decl (d, d')] (isForward d >>= f) (isForward d' >>= g) P := by
  intro s0 s l' hmade hl
  change c.Outcome _ _ _ (f (Building.isForward s.1 d) l s.1) (g (Building.isForward s.2 d') l' s.2)
  rw [c.isForward_eq hmade]
  refine h _ ?_ s0 s l' hmade hl
  cases d <;> simp [Building.isForward]

/-- Nothing is left of what was tried in vain. -/
theorem follows_attempt {P : c.Post (Option α) (Option β)} {x : Phrase Completed (Option α)}
    {y : Phrase B (Option β)} (h : c.Follows [] l [] x y P)
    (hP : ∀ o o' ps v m, P o o' ps v m → (o = none ↔ o' = none)) :
    c.Follows [] l [] (attempt x) (attempt y) fun o o' ps v m =>
      (∃ a b, o = some a ∧ o' = some b ∧ P o o' ps v m) ∨
        (o = none ∧ o' = none ∧ ps = [] ∧ v = []) := by
  intro s0 s l' hmade hl
  have hrun := h s s l' (c.made_nil s) hl
  unfold attempt
  generalize x l s.1 = u at hrun ⊢
  generalize y l' s.2 = u' at hrun ⊢
  have hvain : ∀ {n n' qs}, c.Made qs s (n, n') → c.Made [] s0 (n, giveUp s.2 n') :=
    fun made => c.made_append hmade (c.made_giveUp made)
  cases hrun with
  | @ok o o' _ _ _ _ _ _ holds made near passed =>
    have hnone := hP _ _ _ _ _ holds
    rcases o with _ | a <;> rcases o' with _ | b
    · exact .ok (v := []) (.inr ⟨rfl, rfl, rfl, rfl⟩) (hvain made) hl rfl
    · cases hnone.mp rfl
    · cases hnone.mpr rfl
    · exact .ok (.inl ⟨a, b, rfl, rfl, holds⟩) (c.made_append hmade made) near passed
  | error made => exact .ok (v := []) (.inr ⟨rfl, rfl, rfl, rfl⟩) (hvain made) hl rfl

/-! ### Recursion and repetition -/

theorem agrees_fix {wanted : Expected} {body : Phrase Completed α → Phrase Completed α}
    {body' : Phrase B β → Phrase B β}
    (h : ∀ x y n, c.Agrees n x y P → c.Agrees (n + 1) (body x) (body' y) P) (n : Nat) :
    c.Agrees n (fix wanted body) (fix wanted body') P := by
  intro l hn
  induction hk : l.count using Nat.strongRecOn generalizing l with
  | ind k ih =>
    subst hk
    intro s0 s l' hmade hl
    rw [fix, fix]
    refine h _ _ l.count (fun m hm => ?_) l (Nat.lt_succ_self _) s0 s l' hmade hl
    intro s1 s2 m' hmade' hm'
    dsimp only
    rw [if_pos hm, if_pos ((c.count_lt_iff hl hm').mpr hm)]
    exact ih m.count hm m (Nat.lt_trans hm hn) rfl s1 s2 m' hmade' hm'

variable {R : α → β → c.Parts → Prop} {K : List Lexeme → α → Prop}

theorem agrees_many {more : Token → Bool}
    (h : ∀ l : Lexemes, l.count < n → more l.next.token → c.Follows [] l [] x y (Reads R K)) :
    c.Agrees n (many more x) (many more y) (Reads (Each R) (Many K)) := by
  intro l hn
  induction hk : l.count using Nat.strongRecOn generalizing l with
  | ind k ih =>
    subst hk
    intro s0 s l' hmade hl
    rw [many, many, l.nth_zero, l'.nth_zero, c.next_eq hl]
    split
    · rename_i hmore
      refine Outcome.bind (h l hn hmore s0 s l' hmade hl) ?_
      rintro a b qs v m m' s' ⟨hR, hK⟩ hmade' hm hpassed
      dsimp only
      simp only [c.count_lt_iff hl hm]
      split
      · rename_i hlt
        have hrest := ih m.count hlt m (Nat.lt_trans hlt hn) rfl s' s' m' (c.made_nil s') hm
        refine Outcome.bind (P := fun as bs rs z _ =>
          Reads (Each R) (Many K) (a :: as) (b :: bs) rs z l)
          (hrest.imp hpassed hmade' fun _ _ _ _ _ hall => ⟨.cons hR hall.1, .cons hK hall.2⟩) ?_
        exact fun as bs _ _ _ _ _ hall hmade'' hm' hpassed' => .ok hall hmade'' hm' hpassed'
      · rw [← append_nil qs] at hmade'
        exact .ok ⟨.cons hR .nil, by simpa using Many.cons hK .nil⟩ hmade' hm hpassed
    · exact .ok (v := []) ⟨.nil, .nil⟩ hmade hl rfl

theorem agrees_separatedBy {separator : Token} (hseparator : separator ≠ .eof)
    (h : c.Agrees n x y (Reads R K)) :
    c.Agrees n (separatedBy separator x) (separatedBy separator y)
      (Reads (Each R) (SeparatedBy K separator)) := by
  intro l hl
  refine (h l hl).bind fun a b qs v m hP hm => ?_
  refine Follows.bind (agrees_many (R := R) (K := After K separator) ?_ m
    (Nat.lt_of_le_of_lt (Lexemes.count_le hm) hl)) fun as bs rs z m' hall _ => ?_
  · intro m' hm' hmore
    have hseparates : m'.next.token = separator := of_decide_eq_true hmore
    have hitem := h m'.tail (Nat.lt_trans (Lexemes.count_tail_lt hseparates hseparator) hm')
    refine follows_skip hseparates hseparator fun s0 s l' hmade hl' => ?_
    exact (hitem s0 s l' hmade hl').imp (v := []) rfl (c.made_nil s0)
      fun _ _ _ _ _ hP => ⟨hP.1, .intro hP.2⟩
  · exact follows_pure ⟨.cons hP.1 hall.1, .intro hP.2 hall.2⟩

/-- What each turn of a chain keeps, the chain keeps. -/
theorem follows_chain {use use' : Use} {item : Phrase Completed Expr} {item' : Phrase B ε}
    {operator? : Token → Option ω} {join : ω → Expr → Expr → Phrase Completed Expr}
    {join' : ω → ε → ε → Phrase B ε} {a : Expr} {a' : ε} {J K : List Lexeme → Expr → Prop}
    (hitem : c.Agrees n item item' (Single (.expr use') K)) (heof : operator? .eof = none)
    (hjoin : ∀ o t y w v a a' b b' m, operator? t = some o → J w a → K v b →
      c.Follows (w ++ ⟨t, y⟩ :: v) m [.expr use (a, a'), .expr use' (b, b')] (join o a b)
        (join' o a' b') (Single (.expr use) J)) (hl : l.count ≤ n) (h : J w a) :
    c.Follows w l [.expr use (a, a')] (chain item operator? join a)
      (chain item' operator? join' a') (Single (.expr use) J) := by
  induction hk : l.count using Nat.strongRecOn generalizing w l a a' with
  | ind k ih =>
    subst hk
    intro s0 s l' hmade hl'
    rw [chain, chain, l.nth_zero, l'.nth_zero, c.next_eq hl']
    cases ho : operator? l.next.token with
    | none => exact .ok (v := []) ⟨rfl, (append_nil w).symm ▸ h⟩ hmade hl' rfl
    | some o =>
      have hne : l.next.token ≠ .eof := by
        intro heq
        rw [heq, heof] at ho
        cases ho
      have hright := hitem l.tail (Nat.lt_of_lt_of_le (Lexemes.count_tail_lt rfl hne) hl) s s
        l'.tail (c.made_nil s) (c.near_tail hl' hne)
      refine Outcome.bind (P := fun b b' qs v _ => ∃ u, v = l.next :: u ∧
          qs = [.expr use (a, a'), .expr use' (b, b')] ∧ K u b)
        (hright.imp (Lexemes.items_eq_append rfl hne) hmade ?_) ?_
      · rintro b b' _ u m ⟨rfl, hb⟩
        exact ⟨u, rfl, rfl, hb⟩
      rintro b b' _ _ m m' s' ⟨u, rfl, rfl, hb⟩ hmade' hm hpassed
      refine Outcome.bind (P := fun e e' qs v _ => qs = [.expr use (e, e')] ∧ J (w ++ v) e)
        ((hjoin o _ l.next.location w u a a' b b' m ho h hb s0 s' m' hmade' hm).imp hpassed
          (c.made_nil s0) ?_) ?_
      · rintro e e' _ z r ⟨rfl, hJ⟩
        exact ⟨rfl, by rwa [← append_assoc]⟩
      rintro e e' _ v r r' s1 ⟨rfl, hJ⟩ hmade1 hr hpassed1
      dsimp only
      simp only [c.count_lt_iff hl' hr]
      split
      · rename_i hless
        refine (ih r.count hless (Nat.le_trans (Lexemes.count_le hpassed1) hl) hJ rfl s0 s1 r'
          hmade1 hr).imp hpassed1 (c.made_nil s0) fun _ _ _ _ _ hrest => ?_
        rwa [← append_assoc]
      · exact .ok ⟨rfl, hJ⟩ hmade1 hr hpassed1

end Coupling

/-! ### The same reading twice -/

/-- A part that is the same on both sides. -/
def Part.Same {ε σ δ : Type} : Part (ε × ε) (σ × σ) (δ × δ) → Prop
  | expr _ z => z.1 = z.2
  | stmt z => z.1 = z.2
  | decl z => z.1 = z.2

/-- Trees are built twice, from lexemes that cannot be told apart. -/
def Coupling.trees (n : Likeness) : Coupling Completed where
  toLikeness := n
  Made ps s s' := (∀ p ∈ ps, p.Same) ∧ (s.1 = s.2 → s'.1 = s'.2)
  made_nil _ := ⟨nofun, id⟩
  made_append h h' := ⟨forall_mem_append.mpr ⟨h.1, h'.1⟩, h'.2 ∘ h.2⟩
  made_value _ h := ⟨forall_mem_singleton.mpr (h.1 _ (mem_singleton_self _) :), h.2⟩
  made_expr node x _ h := by
    refine ⟨forall_mem_singleton.mpr ?_, h.2⟩
    exact congrArg (ExprNode.tree x) (ExprNode.map_congr fun u z hz => h.1 (.expr u z) hz)
  made_stmt node x h := by
    refine ⟨forall_mem_singleton.mpr ?_, h.2⟩
    exact congrArg (StmtNode.tree x) (StmtNode.map_congr (fun u z hz => h.1 (.expr u z) hz)
      fun z hz => h.1 (.stmt z) hz)
  made_decl {s s1} node _ h := by
    have hnode : node.map Prod.fst Prod.fst = node.map Prod.snd Prod.snd :=
      DeclNode.map_congr (fun z hz => h.1 (.stmt z) hz) fun z hz => h.1 (.decl z) hz
    rw [hnode]
    refine ⟨forall_mem_singleton.mpr ?_, fun hs => by rw [h.2 hs]⟩
    cases node <;> rfl
  isForward_eq {d s s'} h := by
    rw [show d.1 = d.2 from h.1 _ (mem_singleton_self _)]
    rfl
  made_giveUp h := ⟨nofun, h.2⟩

namespace Phrase

open Coupling Parse

variable {α : Type} {x y : Phrase Completed α} {l : Lexemes} {P : (trees .refl).Post α α}

/-- Whatever a reader gives meets what its readings side by side meet. -/
theorem leads_of_follows (h : (trees .refl).Follows [] l [] x x P) :
    Leads x l fun a r => ∃ b ps v, P a b ps v r ∧ l.items = v ++ r.items := by
  rintro a r ⟨notes, notes', hrun⟩
  have hboth := h (notes, notes) (notes, notes) l (Coupling.made_nil _ _) rfl
  dsimp only at hboth
  rw [hrun] at hboth
  cases hboth with
  | ok holds _ _ passed => exact ⟨_, _, _, holds, passed⟩

/-- One part that is the same on both sides has been made. -/
theorem eq_of_single (part : α × α → Part (Expr × Expr) (Stmt × Stmt) (Decl × Decl))
    {K : List Lexeme → α → Prop} (hpart : ∀ z, (part z).Same → z.1 = z.2) {a b : α}
    {ps : (trees .refl).Parts} {v : List Lexeme} {m : Lexemes} (h : Single part K a b ps v m)
    (hps : ∀ p ∈ ps, p.Same) : a = b := by
  obtain ⟨rfl, -⟩ := h
  exact hpart (a, b) (hps _ (mem_singleton_self _))

variable (hP : ∀ {a b ps v m}, P a b ps v m → (∀ p ∈ ps, p.Same) → a = b)

include hP

/-- What is noted before a reading does not decide its outcome. -/
theorem run_eq (h : (trees .refl).Follows [] l [] x y P) (notes notes' : Completed) :
    (x l notes).1 = (y l notes').1 ∧ (notes = notes' → (x l notes).2 = (y l notes').2) := by
  have hrun := h (notes, notes') (notes, notes') l (Coupling.made_nil _ _) rfl
  dsimp only at hrun
  generalize x l notes = first at hrun ⊢
  generalize y l notes' = second at hrun ⊢
  cases hrun with
  | ok holds made near _ =>
    cases near
    cases hP holds made.1
    exact ⟨rfl, made.2⟩
  | error made => exact ⟨rfl, made.2⟩

/-- What one run gives, every run gives. -/
theorem gives_of_returns (h : (trees .refl).Follows [] l [] x x P) {a : α} {r : Lexemes}
    (hreturns : Returns (x l) (a, r)) : Gives (x l) (a, r) := by
  obtain ⟨notes, notes', hrun⟩ := hreturns
  intro notes1
  refine ⟨(x l notes1).2, Prod.ext ?_ rfl⟩
  rw [(run_eq hP h notes1 notes).1, hrun]

/-- A reader that calls itself is never refused the call. -/
theorem fix_eq {wanted : Expected} {body : Phrase Completed α → Phrase Completed α}
    (hbody : ∀ x y n, (trees .refl).Agrees n x y P →
      (trees .refl).Agrees (n + 1) (body x) (body y) P) :
    fix wanted body = body (fix wanted body) := by
  funext l notes
  conv => lhs; rw [fix]
  have hless : (trees .refl).Agrees l.count (fun rest =>
      if rest.count < l.count then fix wanted body rest else fail wanted rest)
      (fix wanted body) P := by
    intro m hm s0 s m' hmade hm'
    dsimp only
    rw [if_pos hm]
    exact agrees_fix hbody _ m (Nat.lt_succ_self _) s0 s m' hmade hm'
  have hrun := run_eq hP (hbody _ _ _ hless l (Nat.lt_succ_self _)) notes notes
  exact Prod.ext hrun.1 (hrun.2 rfl)

end Phrase

end BlockLang
