import BlockLang.Proofs.Grammar.Basic
import BlockLang.Proofs.Tree.Legible

/-!
# Induction over phrases

What the rules of the grammar respect holds of every tree that is derived. The rules call each
other through repetitions and brackets, and a phrase between brackets is shorter than the whole:
the induction is on a bound for the length.
-/

namespace BlockLang

open BlockLang.Expr List

namespace Grammar

/-! ### Kinds that are built from other kinds -/

section Yields

variable {L : Lexeme → Prop} {α : Type} {n : Nat} {w v : List Lexeme} {x : Lexeme}
  {K : List Lexeme → α → Prop} {P : α → Prop}

/-- A phrase is shorter than `n` and made of certain lexemes. -/
def Within (L : Lexeme → Prop) (n : Nat) (w : List Lexeme) : Prop := w.length < n ∧ ∀ x ∈ w, L x

theorem Within.append (h : Within L n (w ++ v)) : Within L n w ∧ Within L n v := by
  rw [Within, length_append, forall_mem_append] at h
  exact ⟨⟨by omega, h.2.1⟩, by omega, h.2.2⟩

theorem Within.cons (h : Within L (n + 1) (x :: w)) : L x ∧ Within L n w := by
  rw [Within, length_cons, forall_mem_cons] at h
  exact ⟨h.2.1, by omega, h.2.2⟩

theorem Within.tail (h : Within L n (x :: w)) : Within L n w :=
  (append (w := [x]) h).2

theorem within_true (w : List Lexeme) : Within (fun _ => True) (w.length + 1) w :=
  ⟨Nat.lt_succ_self _, fun _ _ => trivial⟩

/-- The phrases of a kind within some bounds stand for something with a property. -/
def Yields (L : Lexeme → Prop) (n : Nat) (K : List Lexeme → α → Prop) (P : α → Prop) : Prop :=
  ∀ ⦃w a⦄, K w a → Within L n w → P a

theorem Yields.of_succ (h : Yields L (n + 1) K P) : Yields L n K P :=
  fun _ _ ha hw => h ha ⟨Nat.lt_succ_of_lt hw.1, hw.2⟩

theorem yields_many (h : Yields L n K P) : Yields L n (Many K) fun as => ∀ a ∈ as, P a := by
  intro w as hmany
  induction hmany with
  | nil => exact fun _ => forall_mem_nil P
  | cons head tail ih =>
    intro hwithin
    obtain ⟨hw, hv⟩ := hwithin.append
    exact forall_mem_cons.mpr ⟨h head hw, ih hv⟩

theorem yields_after {t : Token} (h : Yields L n K P) : Yields L n (After K t) P := by
  rintro _ a ⟨inner⟩ hw
  exact h inner hw.tail

/-- What stands between two tokens is shorter. -/
theorem yields_between {left right : Token} (h : Yields L n K P) :
    Yields L (n + 1) (Between K left right) P := by
  rintro _ a ⟨inner⟩ hw
  exact h inner hw.append.1.cons.2

theorem yields_separatedBy {separator : Token} (h : Yields L n K P) :
    Yields L n (SeparatedBy K separator) fun as => as ≠ [] ∧ ∀ a ∈ as, P a := by
  rintro _ _ ⟨first, others⟩ hwithin
  obtain ⟨hw, hv⟩ := hwithin.append
  exact ⟨cons_ne_nil _ _, forall_mem_cons.mpr
    ⟨h first hw, yields_many (yields_after h) others hv⟩⟩

theorem yields_listed {separator : Token} (h : Yields L n K P) :
    Yields L n (Listed K separator) fun as => ∀ a ∈ as, P a := by
  intro w as hlisted hw
  cases hlisted with
  | none => exact forall_mem_nil P
  | some items => exact (yields_separatedBy h items hw).2

theorem yields_joined {K : List Lexeme → Expr → Prop} {P : Expr → Prop}
    {operator : Token → (Location → Expr → Expr → Expr) → Prop} (h : Yields L n K P)
    (hnode : ∀ t node, operator t node → ∀ l a b, P a → P b → P (node l a b)) :
    Yields L n (Joined K operator) P := by
  intro w a hjoined
  induction hjoined with
  | single only => exact h only
  | join left between right ih =>
    intro hwithin
    obtain ⟨hw, hv⟩ := hwithin.append
    exact hnode _ _ between _ _ _ (ih hw) (h right hv.tail)

/-- What holds of all phrases up to any length holds of all phrases. -/
theorem yields_of_succ (h : ∀ n, Yields L n K P → Yields L (n + 1) K P) (n : Nat) :
    Yields L n K P := by
  induction n with
  | zero => exact fun _ _ _ hw => absurd hw.1 (Nat.not_lt_zero _)
  | succ n ih => exact h n ih

end Yields

/-! ### Expressions, conditions and statements -/

/-- Properties of values, conditions and statements that the rules of the grammar respect. -/
structure Respected (L : Lexeme → Prop) (V C : Expr → Prop) (S : Stmt → Prop) : Prop where
  int : ∀ l value, V (.int l value)
  char : ∀ l byte, V (.char l byte)
  string : ∀ l s, V (.string l s)
  name : ∀ {l x}, L ⟨.name x, l⟩ → V (.name l x)
  index : ∀ {l base first more}, base.IsBase → V base → V first → (∀ e ∈ more, V e) →
    V (.index l base first more)
  call : ∀ {l f es}, L ⟨.name f, l⟩ → (∀ e ∈ es, V e) → V (.call l f es)
  group : ∀ {l e}, V e → V (.group l e)
  arith : ∀ {l operator a b}, V a → V b → V (.arith l operator a b)
  sign : ∀ {l s e}, V e → V (.sign l s e)
  compare : ∀ {l relation a b}, V a → V b → C (.compare l relation a b)
  grouped : ∀ {l e}, C e → C (.group l e)
  logic : ∀ {l operator a b}, C a → C b → C (.logic l operator a b)
  not : ∀ {l e}, C e → C (.not l e)
  empty : S .empty
  assign : ∀ {l a b}, V a → V b → S (.assign l a b)
  called : ∀ {l f es}, V (.call l f es) → S (.call (.call l f es))
  block : ∀ {ss}, (∀ s ∈ ss, S s) → S (.block ss)
  ifThen : ∀ {c s}, C c → S s → S (.ifThen c s)
  ifElse : ∀ {c s s'}, C c → S s → S s' → S (.ifElse c s s')
  whileDo : ∀ {c s}, C c → S s → S (.whileDo c s)
  returnValue : ∀ {l e}, V e → S (.returnValue l e)
  returnNothing : ∀ l, S (.returnNothing l)

namespace Respected

variable {L : Lexeme → Prop} {V C : Expr → Prop} {S : Stmt → Prop} (h : Respected L V C S) {n : Nat}

include h

theorem expression_of_factor (hfactor : Yields L n Factor V) : Yields L n Expression V := by
  refine yields_joined (yields_joined hfactor ?_) ?_
  · rintro t node ⟨⟩ l a b ha hb <;> exact h.arith ha hb
  · rintro t node ⟨⟩ l a b ha hb <;> exact h.arith ha hb

theorem subscripted {base : Expr} (hbase : base.IsBase) (hV : V base) {es : List Expr}
    (hes : ∀ e ∈ es, V e) : V (base.subscripted es) := by
  cases es with
  | nil => exact hV
  | cons first more =>
    obtain ⟨hfirst, hmore⟩ := forall_mem_cons.mp hes
    exact h.index hbase hV hfirst hmore

theorem lvalue (hexpression : Yields L n Expression V) :
    Yields L (n + 1) (Lvalue Expression) V := by
  have hsubscripts : Yields L n
      (Many (Between Expression (.symbol .leftBracket) (.symbol .rightBracket)))
      fun es => ∀ e ∈ es, V e := yields_many (yields_between hexpression).of_succ
  intro w e hplace hw
  cases hplace with
  | @name l x w es subscripts =>
    obtain ⟨hname, hw⟩ := hw.cons
    have hbase : (Expr.name l x).IsBase := trivial
    exact h.subscripted hbase (h.name hname) (hsubscripts subscripts hw)
  | @string l s w es subscripts =>
    have hbase : (Expr.string l s).IsBase := trivial
    exact h.subscripted hbase (h.string l s) (hsubscripts subscripts hw.cons.2)

theorem called_of_expression (hexpression : Yields L n Expression V) :
    Yields L (n + 1) (Call Expression) fun e => (∃ l f es, e = .call l f es) ∧ V e := by
  rintro w e ⟨arguments⟩ hw
  obtain ⟨hname, hw⟩ := hw.cons
  have hes := (yields_between (yields_listed hexpression)).of_succ arguments hw
  exact ⟨⟨_, _, _, rfl⟩, h.call hname hes⟩

theorem factor : ∀ n, Yields L n Factor V := by
  refine yields_of_succ fun n ih w e hfactor hw => ?_
  have hexpression := h.expression_of_factor ih
  cases hfactor with
  | int => exact h.int _ _
  | char => exact h.char _ _
  | place inner => exact h.lvalue hexpression inner hw
  | call inner => exact (h.called_of_expression hexpression inner hw).2
  | group inner => exact h.group (yields_between hexpression inner hw)
  | sign _ operand => exact h.sign (ih operand hw.cons.2)

theorem expression (n : Nat) : Yields L n Expression V := h.expression_of_factor (h.factor n)

theorem condition_of_negation (hnegation : Yields L n Negation C) : Yields L n Condition C := by
  refine yields_joined (yields_joined hnegation ?_) ?_
  · rintro t node ⟨⟩ l a b ha hb
    exact h.logic ha hb
  · rintro t node ⟨⟩ l a b ha hb
    exact h.logic ha hb

theorem negation : ∀ n, Yields L n Negation C := by
  refine yields_of_succ fun n ih w e hnegation hwithin => ?_
  cases hnegation with
  | not operand => exact h.not (ih operand hwithin.cons.2)
  | group inner => exact h.grouped (yields_between (h.condition_of_negation ih) inner hwithin)
  | compare left _ right =>
    obtain ⟨hw, hv⟩ := hwithin.append
    exact h.compare (h.expression (n + 1) left hw) (h.expression (n + 1) right hv.tail)

theorem condition (n : Nat) : Yields L n Condition C := h.condition_of_negation (h.negation n)

theorem statement : ∀ n, Yields L n Statement S := by
  refine yields_of_succ fun n ih w s hstatement hwithin => ?_
  cases hstatement with
  | empty => exact h.empty
  | assign target value =>
    obtain ⟨hw, hv⟩ := hwithin.append
    exact h.assign (h.lvalue (h.expression n) target hw)
      (h.expression n value hv.cons.2.append.1)
  | call call =>
    obtain ⟨⟨l, f, es, rfl⟩, hcall⟩ :=
      h.called_of_expression (h.expression n) call hwithin.append.1
    exact h.called hcall
  | block body => exact h.block (yields_between (yields_many ih) body hwithin)
  | ifThen condition body =>
    obtain ⟨hw, hv⟩ := hwithin.cons.2.append
    exact h.ifThen (h.condition n condition hw) (ih body hv.tail)
  | ifElse condition body otherwise =>
    obtain ⟨hw, hv⟩ := hwithin.cons.2.append
    obtain ⟨hv, hu⟩ := hv.tail.append
    exact h.ifElse (h.condition n condition hw) (ih body hv) (ih otherwise hu.tail)
  | whileDo condition body =>
    obtain ⟨hw, hv⟩ := hwithin.cons.2.append
    exact h.whileDo (h.condition n condition hw) (ih body hv.tail)
  | returnValue value => exact h.returnValue (h.expression n value hwithin.cons.2.append.1)
  | returnNothing => exact h.returnNothing _

end Respected

/-! ### Declarations -/

/-- Names that are declared together are of certain lexemes. They have a scalar type and
positive extents. -/
structure Declared (L : Lexeme → Prop) (xs : List DeclaredName) (ty : Ty) (sizes : List Nat) :
    Prop where
  ne_nil : xs ≠ []
  name : ∀ x ∈ xs, L ⟨.name x.text, x.location⟩
  ty : ty ≠ .nothing
  extent : ∀ n ∈ sizes, 1 ≤ n

/-- The function and its parameters are declared by a header. -/
structure DeclaredHeader (L : Lexeme → Prop) (header : Header) : Prop where
  name : L ⟨.name header.name, header.location⟩
  group : ∀ g ∈ header.groups, Declared L g.names g.ty g.extents

/-- A property of declarations that the rules of the grammar respect. -/
structure RespectedDeclarations (L : Lexeme → Prop) (S : Stmt → Prop) (D : Decl → Prop) :
    Prop where
  vars : ∀ {xs ty sizes}, Declared L xs ty sizes → D (.vars xs ty sizes)
  forward : ∀ {header}, DeclaredHeader L header → D (.forward header)
  function : ∀ {header locals body}, DeclaredHeader L header → (∀ d ∈ locals, D d) →
    (∀ s ∈ body, S s) → D (.function header locals body)

section Declarations

variable {L : Lexeme → Prop} {n : Nat}

theorem declared {w v : List Lexeme} {t : Token} {xs : List DeclaredName} {ty : Ty}
    {sizes : List Nat} (names : Names w xs) (scalar : Scalar t ty) (extents : Extents v sizes)
    (hw : Within L n w) : Declared L xs ty sizes := by
  have hname : Yields L n Name fun x => L ⟨.name x.text, x.location⟩ := by
    rintro _ _ ⟨⟩ hname
    exact hname.2 _ mem_cons_self
  obtain ⟨hne, hxs⟩ := yields_separatedBy hname names hw
  have hextent : Yields (fun _ => True) v.length Extent (1 ≤ ·) := by
    rintro _ _ @⟨_, value, positive⟩ -
    have hlt : (0 : Int32).toInt < value.toInt := Int32.lt_iff_toInt_lt.mp positive
    rw [Int32.toInt_zero] at hlt
    omega
  have hsizes := yields_many (yields_between hextent) extents (within_true v)
  exact ⟨hne, hxs, by cases scalar <;> decide, hsizes⟩

theorem yields_head (n : Nat) : Yields L n Head (DeclaredHeader L) := by
  have hparameters : Yields L n Parameters fun g => Declared L g.names g.ty g.extents := by
    rintro _ _ ⟨_, names, scalar, _, extents⟩ hw
    exact declared names scalar extents hw.append.2.append.1
  rintro _ _ ⟨parameters, _⟩ hw
  exact ⟨hw.tail.2 _ mem_cons_self,
    (yields_between (yields_listed hparameters)).of_succ parameters hw.tail.tail.append.1⟩

end Declarations

namespace RespectedDeclarations

variable {L : Lexeme → Prop} {S : Stmt → Prop} {D : Decl → Prop}
  (h : RespectedDeclarations L S D) (hstatement : ∀ n, Yields L n Statement S)

include h

theorem localDeclaration {n : Nat} (hfunction : Yields L n Function D) :
    Yields L n (Local Function) D := by
  intro w d hlocal hw
  cases hlocal with
  | function inner => exact hfunction inner hw
  | forward header => exact h.forward (yields_head n header hw.append.1)
  | vars inner =>
    obtain ⟨names, scalar, extents⟩ := inner
    exact h.vars (declared names scalar extents hw.tail.append.1)

include hstatement

/-- What the rules respect holds of the definition of a function. -/
theorem definition : ∀ n, Yields L n Function D := by
  refine yields_of_succ fun n ih w d hfunction hwithin => ?_
  obtain ⟨header, locals, body, _⟩ := hfunction
  obtain ⟨hw, hv⟩ := hwithin.append
  obtain ⟨hv, hu⟩ := hv.cons.2.append
  exact h.function (yields_head (n + 1) header hw)
    (yields_many (h.localDeclaration ih) locals hv)
    ((yields_between (yields_many (hstatement n))).of_succ body hu.append.1)

end RespectedDeclarations

theorem respected_proper :
    Respected (fun _ => True) IsValue IsCondition Stmt.IsProper where
  int _ _ := trivial
  char _ _ := trivial
  string _ _ := trivial
  name _ := trivial
  index _ hbase hfirst hmore := ⟨hbase, hfirst, areValues_iff.mpr hmore⟩
  call _ hes := areValues_iff.mpr hes
  group h := h
  arith ha hb := ⟨ha, hb⟩
  sign h := h
  compare ha hb := ⟨ha, hb⟩
  grouped h := h
  logic ha hb := ⟨ha, hb⟩
  not h := h
  empty := trivial
  assign ha hb := ⟨ha, hb⟩
  called h := ⟨trivial, h⟩
  block h := Stmt.areProper_iff.mpr h
  ifThen hc hs := ⟨hc, hs⟩
  ifElse hc hs hs' := ⟨hc, hs, hs'⟩
  whileDo hc hs := ⟨hc, hs⟩
  returnValue h := h
  returnNothing _ := trivial

theorem respectedDeclarations_proper :
    RespectedDeclarations (fun _ => True) Stmt.IsProper Decl.IsProper where
  vars _ := trivial
  forward _ := trivial
  function _ hlocals hbody := ⟨Decl.areProper_iff.mpr hlocals, Stmt.areProper_iff.mpr hbody⟩

end Grammar

end BlockLang
