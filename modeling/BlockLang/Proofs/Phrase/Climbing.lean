import BlockLang.Proofs.Grammar.Else
import BlockLang.Proofs.Grammar.Induction
import BlockLang.Proofs.Phrase.Coupling

/-!
# Climbing and the levels of the grammar

In the grammar a sum is made of products and a product of operands. Read level by level, an
expression comes out as when it is read by climbing: what binds more tightly than a sum is taken
into the operand before it, so that only the operators of sums are left to the loop of a sum.
-/

namespace BlockLang

namespace Token

def additive? : Token → Option Arith
  | symbol .plus => some .add
  | symbol .minus => some .sub
  | _ => none

def multiplicative? : Token → Option Arith
  | symbol .star => some .mul
  | keyword .div => some .div
  | keyword .mod => some .mod
  | _ => none

end Token

namespace Phrase

open Coupling Grammar List Token

/-! ### Expressions level by level -/

section Levels

variable {A ε σ δ : Type} [Building A ε σ δ] (operand : Phrase A ε)

def product : Phrase A ε := do
  let l ← location
  chain operand multiplicative? (fun o a b => newExpr (.arith o a b) l) (← operand)

def sum : Phrase A ε := do
  let l ← location
  chain (product operand) additive? (fun o a b => newExpr (.arith o a b) l) (← product operand)

/-- The expressions of a precedence. -/
def level : Precedence → Phrase A ε
  | .none => sum operand
  | .term => product operand
  | .factor => operand
  | .unary => operand

/-- An operand in terms of the operands inside it. -/
def operandOf : Phrase A ε := leading (level operand)

end Levels

def operand {A ε σ δ : Type} [Building A ε σ δ] : Phrase A ε := fix .expression operandOf

/-- The kind of phrase for a precedence. -/
def Level : Precedence → List Lexeme → Expr → Prop
  | .none => Expression
  | .term => Term
  | .factor => Factor
  | .unary => Factor

variable {B ε σ δ α α' β β' ω : Type} [Building B ε σ δ] {c : Coupling B} {n : Nat} {l m : Lexemes}
  {t : Token} {v w : List Lexeme} {ps : c.Parts} {Q : c.Post α' β'}

/-- A phrase starts where the lexemes start that it was read from. -/
theorem start_eq (h : l.items = w ++ m.items) (hw : w ≠ []) : start w = l.next.location := by
  cases w with
  | nil => exact absurd rfl hw
  | cons x w =>
    rw [Lexemes.next_eq_of_items h]
    rfl

/-- A list whose end is seen at a token that no item starts with. -/
theorem follows_listed {separator close : Token} {item : Phrase Completed α} {item' : Phrase B β}
    {R : α → β → c.Parts → Prop} {K : List Lexeme → α → Prop} {k : List α → Phrase Completed α'}
    {k' : List β → Phrase B β'} (hseparator : separator ≠ .eof)
    (h : c.Agrees n item item' (Reads R K)) (hl : l.count < n)
    (hk : ∀ as bs qs v m, Reads (Each R) (Listed K separator) as bs qs v m →
      l.items = v ++ m.items → c.Follows (w ++ v) m (ps ++ qs) (k as) (k' bs) Q) :
    c.Follows w l ps
      (do
        let t ← peek
        if t = close then pure [] >>= k else separatedBy separator item >>= k)
      (do
        let t ← peek
        if t = close then pure [] >>= k' else separatedBy separator item' >>= k') Q := by
  refine follows_peek ?_
  split
  · exact (follows_pure ⟨.nil, .none⟩).bind hk
  · exact (agrees_separatedBy hseparator h l hl).bind fun as bs qs v m hall =>
      hk as bs qs v m ⟨hall.1, .some hall.2⟩

theorem agrees_joined {use : Use} {item : Phrase Completed Expr} {item' : Phrase B ε}
    {K : List Lexeme → Expr → Prop} {S : Token → Prop}
    {operator : Token → (Location → Expr → Expr → Expr) → Prop} {operator? : Token → Option ω}
    {join : Location → ω → Expr → Expr → Phrase Completed Expr}
    {join' : Location → ω → ε → ε → Phrase B ε}
    (h : c.Agrees n item item' (Single (.expr use) K)) (hstarts : Starts K S)
    (heof : operator? .eof = none)
    (hjoin : ∀ x t o, operator? t = some o → ∃ node, operator t node ∧ ∀ a a' b b' w l,
      c.Follows w l [.expr use (a, a'), .expr use (b, b')] (join x o a b) (join' x o a' b')
        (Single (.expr use) fun v e => v = w ∧ e = node x a b)) :
    c.Agrees n
      (do
        let x ← location
        chain item operator? (join x) (← item))
      (do
        let x ← location
        chain item' operator? (join' x) (← item')) (Single (.expr use) (Joined K operator)) := by
  intro l hl
  refine follows_location ((h l hl).bind ?_)
  rintro a a' _ v m ⟨rfl, hv⟩ hm
  refine (follows_chain (J := fun w e => Joined K operator w e ∧ start w = l.next.location) h heof
    ?_ (Nat.le_of_lt (Nat.lt_of_le_of_lt (Lexemes.count_le hm) hl))
    ⟨.single hv, start_eq hm (hstarts.ne_nil hv)⟩).imp fun _ _ _ _ _ hall => ⟨hall.1, hall.2.1⟩
  rintro o t y w v a a' b b' m ho ⟨hw, hstart⟩ hb
  obtain ⟨node, hnode, hmakes⟩ := hjoin l.next.location t o ho
  refine (hmakes a a' b b' _ m).imp ?_
  rintro _ _ _ _ _ ⟨rfl, rfl, rfl⟩
  obtain ⟨x, u, rfl, -⟩ := hstarts.joined hw
  exact ⟨rfl, hstart ▸ .join hw hnode hb, hstart⟩

theorem multiplies_of_multiplicative? {o : Arith} (h : t.multiplicative? = some o) :
    Multiplies t fun l => .arith l o := by
  unfold multiplicative? at h
  split at h <;> cases h
  · exact .star
  · exact .div
  · exact .mod

theorem adds_of_additive? {o : Arith} (h : t.additive? = some o) : Adds t fun l => .arith l o := by
  unfold additive? at h
  split at h <;> cases h
  · exact .plus
  · exact .minus

theorem signs_of_sign? {sign : Sign} (h : t.sign? = some sign) : Signs t sign := by
  unfold sign? at h
  split at h <;> cases h
  · exact .minus
  · exact .plus

/-- A name or a string, as a token and as a node. -/
inductive Heads : Token → ExprNode ε → Prop
  | name {x : String} : Heads (.name x) (.name x)
  | string {s : String} : Heads (.string s) (.string s)

section Inner

variable {expression : Phrase Completed Expr} {expression' : Phrase B ε}
  (h : c.Agrees n expression expression' (Single (.expr .value) Expression))

include h

theorem callOf_agrees : c.Agrees (n + 1) (callOf expression) (callOf expression')
    (Single (.expr .call) (Call Expression)) := by
  intro l hl
  refine follows_declaredName fun f hf => ?_
  have hlt := Lexemes.count_tail_lt hf nofun
  have harguments : c.Follows [] l.tail [] (arguments expression) (arguments expression')
      (Reads (Each fun a b ps => ps = [.expr .value (a, b)])
        (Between (Listed Expression (.symbol .comma)) (.symbol .leftParen)
          (.symbol .rightParen))) := by
    refine follows_expect nofun fun hparen => ?_
    have hlt' := Lexemes.count_tail_lt hparen nofun
    refine follows_listed nofun h (by omega) fun es es' qs v m hes _ => ?_
    exact follows_expect nofun fun _ => follows_pure ⟨hes.1, .intro hes.2⟩
  refine harguments.bind ?_
  rintro es es' qs v m ⟨hes, harguments⟩ _
  obtain ⟨zs, rfl, rfl, rfl⟩ := hes.exists_zip
  exact follows_newExpr (.call f zs) trivial rfl (.intro harguments)

/-- A subscript is read after its opening bracket. -/
theorem subscript_agrees :
    c.Agrees n (subscript expression) (subscript expression') (Single (.expr .value) fun v e =>
      ∀ x, Between Expression (.symbol .leftBracket) (.symbol .rightBracket)
        (⟨.symbol .leftBracket, x⟩ :: v) e) := by
  intro l hl
  refine (h l hl).bind ?_
  rintro e e' _ v m ⟨rfl, he⟩ _
  exact follows_expect nofun fun _ => follows_pure ⟨rfl, fun _ => .intro he⟩

theorem placeOf_follows (base : ExprNode (Expr × ε)) (hbase : Heads t base)
    (ht : l.next.token = t) (hl : l.count < n + 1) :
    c.Follows [] l [] (placeOf expression (base.map Prod.fst))
      (placeOf expression' (base.map Prod.snd)) (Single (.expr .place) (Lvalue Expression)) := by
  have hne : t ≠ .eof := by cases hbase <;> exact nofun
  have hlt := Lexemes.count_tail_lt ht hne
  have hnode : c.Follows [] l.tail [] (newExpr (base.map Prod.fst) l.next.location)
      (newExpr (base.map Prod.snd) l.next.location) (Single (.expr .place) fun v e =>
        v = [] ∧ e = (base.map Prod.fst).tree l.next.location) :=
    follows_newExpr base (by cases hbase <;> trivial) (by cases hbase <;> rfl) ⟨rfl, rfl⟩
  refine follows_location (follows_skip ht hne (hnode.bind ?_))
  rintro a a' _ v m ⟨rfl, rfl, rfl⟩ hm
  have hm' := Lexemes.count_le hm
  refine (follows_chain (J := fun w e => ∃ v es, w = ⟨t, l.next.location⟩ :: v ∧
      Many (Between Expression (.symbol .leftBracket) (.symbol .rightBracket)) v es ∧
      e = ((base.map Prod.fst).tree l.next.location).subscripted es) (subscript_agrees h) rfl ?_
    (by omega) ⟨[], [], rfl, .nil, rfl⟩).imp ?_
  · rintro _ t' y _ u _ a' b b' m ho ⟨v, es, rfl, hes, rfl⟩ hb
    have hbracket : t' = .symbol .leftBracket := by
      unfold subscripting? at ho
      split at ho <;> trivial
    subst hbracket
    refine follows_newExpr (.index (_, a') (b, b')) trivial rfl
      ⟨_, es ++ [b], rfl, hes.concat (hb y), ?_⟩
    cases hbase with
    | name => exact Expr.subscript_subscripted_name
    | string => exact Expr.subscript_subscripted_string
  · rintro _ _ _ _ _ ⟨hps, v, es, rfl, hes, rfl⟩
    cases hbase with
    | name => exact ⟨hps, .name hes⟩
    | string => exact ⟨hps, .string hes⟩

end Inner

section Leading

variable {inner : Precedence → Phrase Completed Expr} {inner' : Precedence → Phrase B ε}
  (h : ∀ p, c.Agrees n (inner p) (inner' p) (Single (.expr .value) (Level p)))

include h

theorem grouping_agrees :
    c.Agrees (n + 1) (grouping inner) (grouping inner') (Single (.expr .value) Factor) := by
  intro l hl
  refine follows_location (follows_expect nofun fun hparen => ?_)
  have hlt := Lexemes.count_tail_lt hparen nofun
  refine (h .none l.tail (by omega)).bind ?_
  rintro e e' _ v m ⟨rfl, he⟩ _
  exact follows_expect nofun fun _ => follows_newExpr (.group (e, e')) trivial rfl
    (.group (.intro he))

theorem signed_follows {sign : Sign} (ht : l.next.token = t) (hsign : t.sign? = some sign)
    (hl : l.count < n + 1) :
    c.Follows [] l [] (signed inner) (signed inner') (Single (.expr .value) Factor) := by
  have hne : t ≠ .eof := by
    rintro rfl
    cases hsign
  have hlt := Lexemes.count_tail_lt ht hne
  refine follows_location (follows_advance ht hne ?_)
  rw [hsign]
  refine (h .unary l.tail (by omega)).bind ?_
  rintro e e' _ v m ⟨rfl, he⟩ _
  exact follows_newExpr (.sign sign (e, e')) trivial rfl (.sign (signs_of_sign? hsign) he)

theorem leading_agrees :
    c.Agrees (n + 1) (leading inner) (leading inner') (Single (.expr .value) Factor) := by
  intro l hl
  have hplace : ∀ {t} (base : ExprNode (Expr × ε)), Heads t base → l.next.token = t →
      c.Follows [] l [] (placeOf (inner .none) (base.map Prod.fst))
        (placeOf (inner' .none) (base.map Prod.snd)) (Single (.expr .value) Factor) :=
    fun base hbase ht => ((placeOf_follows (h .none) base hbase ht hl).value nofun).imp
      fun _ _ _ _ _ he => ⟨he.1, .place he.2⟩
  refine follows_location (follows_peek ?_)
  split
  all_goals rename_i ht
  · exact grouping_agrees h l hl
  · exact signed_follows h ht rfl hl
  · exact signed_follows h ht rfl hl
  · exact follows_skip ht nofun (follows_newExpr (.int _) trivial rfl .int)
  · exact follows_skip ht nofun (follows_newExpr (.char _) trivial rfl .char)
  · refine follows_peekSecond ht nofun ?_
    split
    · exact ((callOf_agrees (h .none) l hl).value nofun).imp fun _ _ _ _ _ he => ⟨he.1, .call he.2⟩
    · exact hplace (.name _) .name ht
  · exact hplace (.string _) .string ht
  · exact follows_fail

end Leading

section Operand

variable {operand : Phrase Completed Expr} {operand' : Phrase B ε}
  (h : c.Agrees n operand operand' (Single (.expr .value) Factor))

include h

theorem product_agrees :
    c.Agrees n (product operand) (product operand') (Single (.expr .value) Term) :=
  agrees_joined h starts_factor rfl fun _ _ o ho => ⟨_, multiplies_of_multiplicative? ho,
    fun a a' b b' _ _ => follows_newExpr (.arith o (a, a') (b, b')) trivial rfl ⟨rfl, rfl⟩⟩

theorem sum_agrees :
    c.Agrees n (sum operand) (sum operand') (Single (.expr .value) Expression) :=
  agrees_joined (product_agrees h) starts_factor.joined rfl fun _ _ o ho => ⟨_,
    adds_of_additive? ho,
    fun a a' b b' _ _ => follows_newExpr (.arith o (a, a') (b, b')) trivial rfl ⟨rfl, rfl⟩⟩

theorem operandOf_agrees :
    c.Agrees (n + 1) (operandOf operand) (operandOf operand') (Single (.expr .value) Factor) := by
  refine leading_agrees fun p => ?_
  cases p with
  | none => exact sum_agrees h
  | term => exact product_agrees h
  | factor => exact h
  | unary => exact h

end Operand

theorem operand_eq : (operand : Phrase Completed Expr) = operandOf operand :=
  fix_eq (eq_of_single (.expr .value) fun _ h => h) fun _ _ _ => operandOf_agrees

/-! ### Climbing -/

theorem arith?_of_multiplicative? {o : Arith} (h : t.multiplicative? = some o) :
    t.arith? = some o ∧ t.precedence = .factor := by
  unfold multiplicative? at h
  split at h <;> cases h <;> exact ⟨rfl, rfl⟩

theorem arith?_of_additive? {o : Arith} (h : t.additive? = some o) :
    t.arith? = some o ∧ t.precedence = .term := by
  unfold additive? at h
  split at h <;> cases h <;> exact ⟨rfl, rfl⟩

theorem arith?_eq_none (h : t.additive? = none) (h' : t.multiplicative? = none) :
    t.arith? = none := by
  unfold additive? at h
  unfold multiplicative? at h'
  unfold arith?
  split <;> first | rfl | exact absurd h (by decide) | exact absurd h' (by decide)

theorem precedence_of_additive? (h : t.additive? = none) (h' : t.multiplicative? = none) :
    ¬ .none < t.precedence := by
  unfold additive? at h
  unfold multiplicative? at h'
  unfold precedence
  split <;> first | decide | exact absurd h (by decide) | exact absurd h' (by decide)

/-- A token that joins no products binds at most as tightly as those that join terms. -/
theorem precedence_of_multiplicative? (h : t.multiplicative? = none) : ¬ .term < t.precedence := by
  unfold multiplicative? at h
  unfold precedence
  split <;> first | decide | cases h

section Turn

variable {A : Type} [Building A ε σ δ] {inner : Precedence → Phrase A ε} {p q : Precedence}
  {z : Location} {a : ε} {o : Arith}

/-- A turn of the loop takes an operator and its right operand. -/
theorem climb_of_lt (ho : l.next.token.arith? = some o) (hp : p < l.next.token.precedence) :
    climb inner p z a l = inner l.next.token.precedence l.tail >>= fun b =>
      newExpr (.arith o a b.1) z b.2 >>= fun e =>
        if e.2.count < l.count then climb inner p z e.1 e.2 else fail .expression e.2 := by
  have hprev : l.tail.prev = l.next := by
    refine Lexemes.prev_tail fun heof => ?_
    rw [heof] at ho
    cases ho
  have hbinary : binary inner z a l = inner l.next.token.precedence l.tail >>= fun b =>
      newExpr (.arith o a b.1) z b.2 := by
    have hadvance : ∀ f : Lexeme → Phrase A ε, (advance >>= f) l = f l.tail.prev l.tail :=
      fun _ => rfl
    rw [binary, hadvance, hprev, ho]
    rfl
  rw [climb, l.nth_zero, if_pos hp, hbinary, bind_assoc]

theorem climb_of_not_lt (hp : ¬ p < l.next.token.precedence) :
    climb inner p z a l = pure (a, l) := by
  rw [climb, l.nth_zero, if_neg hp]

/-- The loop may stop at a higher precedence and go on from there. -/
theorem climb_climb (h : ∀ t : Token, q < t.precedence → p < t.precedence) :
    climb inner p z a l = climb inner q z a l >>= fun r => climb inner p z r.1 r.2 := by
  induction hk : l.count using Nat.strongRecOn generalizing a l with
  | ind k ih =>
    subst hk
    rw [climb.eq_1 inner q]
    split
    · rename_i hq
      rw [climb, if_pos (h _ hq), bind_assoc]
      congr
      funext r
      obtain ⟨e, rest⟩ := r
      dsimp only
      split
      · rename_i hlt
        exact ih rest.count hlt rfl
      · rfl
    · rfl

end Turn

/-- The operators of one level are taken alike by a chain and by climbing, where no tighter
operator can follow an operand. -/
theorem follows_climb {p q : Precedence} {operator? : Token → Option Arith}
    {item : Phrase Completed Expr} {inner' : Precedence → Phrase B ε} {a : Expr} {a' : ε}
    {z : Location} {J K : List Lexeme → Expr → Prop} {N : Token → Prop}
    (hitem : c.Agrees n item (inner' q) fun e e' ps v m =>
      Single (.expr .value) K e e' ps v m ∧ N m.next.token)
    (hsome : ∀ t o, operator? t = some o → t.arith? = some o ∧ t.precedence = q) (hp : p < q)
    (hnone : ∀ t, operator? t = none → N t → ¬ p < t.precedence)
    (hjoin : ∀ o t y w v a b, operator? t = some o → J w a → K v b →
      J (w ++ ⟨t, y⟩ :: v) (.arith z o a b))
    (hl : l.count ≤ n) (h : J w a) (hN : N l.next.token) :
    c.Follows w l [.expr .value (a, a')]
      (chain item operator? (fun o a b => newExpr (.arith o a b) z) a)
      (climb inner' p z a') fun e e' ps v m =>
        Single (.expr .value) J e e' ps v m ∧ operator? m.next.token = none := by
  induction hk : l.count using Nat.strongRecOn generalizing w l a a' with
  | ind k ih =>
    subst hk
    intro s0 s l' hmade hl'
    rw [chain, l.nth_zero]
    cases ho : operator? l.next.token with
    | none =>
      have hnot := hnone _ ho hN
      rw [← c.next_eq hl'] at hnot
      rw [climb_of_not_lt hnot]
      exact .ok (v := []) ⟨⟨rfl, (append_nil w).symm ▸ h⟩, ho⟩ hmade hl' rfl
    | some o =>
      obtain ⟨harith, hq⟩ := hsome _ o ho
      have hne : l.next.token ≠ .eof := by
        intro heof
        rw [heof] at harith
        cases harith
      have hright := hitem l.tail (Nat.lt_of_lt_of_le (Lexemes.count_tail_lt rfl hne) hl) s s
        l'.tail (c.made_nil s) (c.near_tail hl' hne)
      rw [← c.next_eq hl'] at harith hq
      rw [climb_of_lt harith (hq ▸ hp), hq]
      refine Outcome.bind (P := fun b b' qs v m => ∃ u, v = l.next :: u ∧
          qs = [.expr .value (a, a'), .expr .value (b, b')] ∧ K u b ∧ N m.next.token)
        (hright.imp (Lexemes.items_eq_append rfl hne) hmade ?_) ?_
      · rintro b b' _ u m ⟨⟨rfl, hb⟩, hm⟩
        exact ⟨u, rfl, rfl, hb, hm⟩
      rintro b b' _ _ m m' s' ⟨u, rfl, rfl, hb, hm⟩ hmade' hm' hpassed
      have hJ := hjoin o _ l.next.location w u a b ho h hb
      have hless : m.count < l.count := by
        rw [l.count_eq, m.count_eq, hpassed, cons_append, length_cons, length_append]
        omega
      have hmade1 : c.Made [.expr .value _] s0 _ :=
        c.made_expr (.arith o (a, a') (b, b')) z trivial hmade'
      change c.Outcome _ _ _ ((if m.count < l.count then chain _ _ _ _ m else _) s'.1)
        ((if m'.count < l'.count then climb _ _ _ _ m' else _) _)
      rw [if_pos hless, if_pos ((c.count_lt_iff hl' hm').mpr hless)]
      refine (ih m.count hless (Nat.le_trans (Nat.le_of_lt hless) hl) hJ hm rfl s0 _ m' hmade1
        hm').imp hpassed (c.made_nil s0) fun _ _ _ _ _ hrest => ?_
      rwa [← append_assoc]

/-- What is read for a precedence, and that a product is not continued. -/
def Reached (p : Precedence) (e : Expr) (e' : ε) (ps : c.Parts) (v : List Lexeme) (m : Lexemes) :
    Prop :=
  Single (.expr .value) (Level p) e e' ps v m ∧ (p = .term → m.next.token.multiplicative? = none)

/-- A phrase is joined to others, and starts where the first of them does. -/
theorem joined_arith {K : List Lexeme → Expr → Prop} {S : Token → Prop}
    {operator : Token → (Location → Expr → Expr → Expr) → Prop} {o : Arith} {y z : Location}
    {a b : Expr} (hstarts : Starts K S) (ht : operator t fun l => .arith l o)
    (hw : Joined K operator w a ∧ start w = z) (hv : K v b) :
    Joined K operator (w ++ ⟨t, y⟩ :: v) (.arith z o a b) ∧ start (w ++ ⟨t, y⟩ :: v) = z := by
  obtain ⟨hw, rfl⟩ := hw
  obtain ⟨x, u, rfl, -⟩ := hstarts.joined hw
  exact ⟨.join hw ht hv, rfl⟩

section Inside

variable {inner' : Precedence → Phrase B ε}
  (h : ∀ p, c.Agrees l.count (level operand p) (inner' p) (Reached p))

include h

theorem leading_follows :
    c.Follows [] l [] operand (leading inner') (Single (.expr .value) Factor) := by
  rw [operand_eq]
  exact leading_agrees (fun p m hm => (h p m hm).imp fun _ _ _ _ _ hread => hread.1) l
    (Nat.lt_succ_self _)

/-- No operator is taken where none binds tightly enough. -/
theorem operand_follows {p : Precedence} (hp : ∀ t : Token, ¬ p < t.precedence) :
    c.Follows [] l [] operand (byPrecedenceOf inner' p) (Single (.expr .value) Factor) := by
  intro s0 s l' hmade hl
  change c.Outcome _ _ _ _ ((leading inner' >>= climb inner' p l'.next.location) l' s.2)
  rw [← bind_pure (operand : Phrase Completed Expr)]
  refine (leading_follows h).bind ?_ s0 s l' hmade hl
  rintro a a' _ v m ⟨rfl, hv⟩ _
  intro s1 s2 m' hmade' hm'
  rw [climb_of_not_lt (hp _)]
  exact .ok (v := []) ⟨rfl, by simpa using hv⟩ hmade' hm' rfl

theorem product_follows :
    c.Follows [] l [] (product operand) (byPrecedenceOf inner' .term) (Reached .term) := by
  refine follows_location ((leading_follows h).bind ?_)
  rintro a a' _ v m ⟨rfl, hv⟩ hm
  refine (follows_climb (J := fun w e => Term w e ∧ start w = l.next.location) (K := Factor)
    (N := fun _ => True) (fun m hm => (h .factor m hm).imp fun _ _ _ _ _ hread =>
      ⟨hread.1, trivial⟩) (fun _ _ => arith?_of_multiplicative?) (by decide)
    (fun _ ht _ => precedence_of_multiplicative? ht)
    (fun _ _ _ _ _ _ _ ho => joined_arith starts_factor (multiplies_of_multiplicative? ho))
    (Lexemes.count_le hm) ⟨.single hv, start_eq hm (starts_factor.ne_nil hv)⟩ trivial).imp ?_
  exact fun _ _ _ _ _ hread => ⟨⟨hread.1.1, hread.1.2.1⟩, fun _ => hread.2⟩

/-- The loop of a sum starts behind its first product. -/
theorem sum_follows :
    c.Follows [] l [] (sum operand) (byPrecedenceOf inner' .none) (Reached .none) := by
  intro s0 s l' hmade hl
  have hright : byPrecedenceOf inner' .none l' =
      (byPrecedenceOf inner' .term >>= climb inner' .none l.next.location) l' := by
    change (leading inner' l' >>= fun r => climb inner' .none l'.next.location r.1 r.2) =
      (leading inner' l' >>= fun r => climb inner' .term l'.next.location r.1 r.2) >>=
        fun r => climb inner' .none l.next.location r.1 r.2
    rw [bind_assoc, c.next_eq hl]
    congr
    funext r
    exact climb_climb fun t ht => Nat.lt_trans Nat.zero_lt_one ht
  rw [hright]
  refine Follows.bind (f := chain (product operand) additive?
    fun o a b => newExpr (.arith o a b) l.next.location) (product_follows h) ?_ s0 s l' hmade hl
  rintro a a' _ v m ⟨⟨rfl, hv⟩, hnext⟩ hm
  refine (follows_climb (J := fun w e => Expression w e ∧ start w = l.next.location) (K := Term)
    (N := fun t => t.multiplicative? = none) (fun m hm => (h .term m hm).imp
      fun _ _ _ _ _ hread => ⟨hread.1, hread.2 rfl⟩) (fun _ _ => arith?_of_additive?) (by decide)
    (fun _ => precedence_of_additive?)
    (fun _ _ _ _ _ _ _ ho => joined_arith starts_factor.joined (adds_of_additive? ho))
    (Lexemes.count_le hm) ⟨.single hv, start_eq hm (starts_factor.joined.ne_nil hv)⟩
    (hnext rfl)).imp ?_
  exact fun _ _ _ _ _ hread => ⟨⟨hread.1.1, hread.1.2.1⟩, nofun⟩

theorem byPrecedenceOf_follows (p : Precedence) :
    c.Follows [] l [] (level operand p) (byPrecedenceOf inner' p) (Reached p) := by
  have hweak : ∀ t : Token, ¬ .factor < t.precedence ∧ ¬ .unary < t.precedence := by
    intro t
    unfold precedence
    split <;> decide
  cases p with
  | none => exact sum_follows h
  | term => exact product_follows h
  | factor =>
    exact (operand_follows h fun t => (hweak t).1).imp fun _ _ _ _ _ hread => ⟨hread, nofun⟩
  | unary =>
    exact (operand_follows h fun t => (hweak t).2).imp fun _ _ _ _ _ hread => ⟨hread, nofun⟩

end Inside

/-- Climbing reads the phrases of a precedence as they are read level by level. -/
theorem byPrecedence_agrees (p : Precedence) (n : Nat) :
    c.Agrees n (level operand p) (byPrecedence p) (Reached p) := by
  intro l hn
  induction hk : l.count using Nat.strongRecOn generalizing l p with
  | ind k ih =>
    subst hk
    intro s0 s l' hmade hl
    rw [byPrecedence]
    refine byPrecedenceOf_follows (fun q m hm s1 s2 m' hmade' hm' => ?_) p s0 s l' hmade hl
    rw [if_pos ((c.count_lt_iff hl hm').mpr hm)]
    exact ih m.count hm q m (Nat.lt_trans hm hn) rfl s1 s2 m' hmade' hm'

theorem eq_of_reached {p : Precedence} {a b : Expr} {ps : (trees .refl).Parts}
    (h : Reached p a b ps v m) : (∀ q ∈ ps, q.Same) → a = b :=
  eq_of_single (.expr .value) (fun _ hz => hz) h.1

/-- Climbing and reading level by level come to the same. -/
theorem byPrecedence_eq (p : Precedence) :
    (byPrecedence p : Phrase Completed Expr) = level operand p := by
  funext l notes
  have hrun := run_eq eq_of_reached (byPrecedence_agrees p _ l (Nat.lt_succ_self _)) notes notes
  exact (Prod.ext hrun.1 (hrun.2 rfl)).symm

theorem expression_eq : (expression : Phrase Completed Expr) = sum operand := byPrecedence_eq .none

theorem expression_agrees (n : Nat) :
    c.Agrees n expression expression (Single (.expr .value) Expression) := by
  rw [expression_eq]
  exact fun l hl => (byPrecedence_agrees .none n l hl).imp fun _ _ _ _ _ hread => hread.1

end Phrase

end BlockLang
