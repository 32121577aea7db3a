import BlockLang.Token
import BlockLang.Tree

/-!
# The grammar of programs

A kind of phrase relates lists of lexemes to the trees that they stand for; its rules are the
productions of the grammar. Operators join from left to right, and the rank of an operator is given
by the kind of its operands. Only the `else` of a statement is left open: it may belong to any `if`
in front of it.
-/

namespace BlockLang

open BlockLang.Expr

def Expr.subscripted (base : Expr) : List Expr → Expr
  | [] => base
  | first :: more => .index base.location base first more

theorem Expr.subscript_subscripted_name {l : Location} {x : String} {es : List Expr} {e : Expr} :
    subscript l (subscripted (.name l x) es) e =
      subscripted (.name l x) (es ++ [e]) := by
  cases es <;> rfl

theorem Expr.subscript_subscripted_string {l : Location} {s : String} {es : List Expr} {e : Expr} :
    subscript l (subscripted (.string l s) es) e =
      subscripted (.string l s) (es ++ [e]) := by
  cases es <;> rfl

namespace Grammar

/-- Where a phrase starts. -/
def start : List Lexeme → Location
  | [] => .start
  | x :: _ => x.location

/-! ### Kinds that are built from other kinds -/

section

variable {α : Type} (item : List Lexeme → α → Prop)

/-- Any number of items. -/
inductive Many : List Lexeme → List α → Prop
  | nil : Many [] []
  | cons {w v : List Lexeme} {a : α} {as : List α} (head : item w a) (tail : Many v as) :
      Many (w ++ v) (a :: as)

/-- An item with a token in front of it. -/
inductive After (t : Token) : List Lexeme → α → Prop
  | intro {l : Location} {w : List Lexeme} {a : α} (inner : item w a) : After t (⟨t, l⟩ :: w) a

/-- An item between two tokens. -/
inductive Between (left right : Token) : List Lexeme → α → Prop
  | intro {l l' : Location} {w : List Lexeme} {a : α} (inner : item w a) :
      Between left right (⟨left, l⟩ :: w ++ [⟨right, l'⟩]) a

/-- One item or more with a token between them. -/
inductive SeparatedBy (separator : Token) : List Lexeme → List α → Prop
  | intro {w v : List Lexeme} {a : α} {as : List α} (first : item w a)
      (others : Many (After item separator) v as) : SeparatedBy separator (w ++ v) (a :: as)

/-- Any number of items with a token between them. -/
inductive Listed (separator : Token) : List Lexeme → List α → Prop
  | none : Listed separator [] []
  | some {w : List Lexeme} {as : List α} (items : SeparatedBy item separator w as) :
      Listed separator w as

end

/-- Operands that are joined by operators from left to right. -/
inductive Joined (operand : List Lexeme → Expr → Prop)
    (operator : Token → (Location → Expr → Expr → Expr) → Prop) : List Lexeme → Expr → Prop
  | single {w : List Lexeme} {a : Expr} (only : operand w a) : Joined operand operator w a
  | join {w v : List Lexeme} {a b : Expr} {t : Token} {l : Location}
      {node : Location → Expr → Expr → Expr} (left : Joined operand operator w a)
      (between : operator t node) (right : operand v b) :
      Joined operand operator (w ++ ⟨t, l⟩ :: v) (node (start w) a b)

/-- Tokens that may be left out, and whether they stand there. -/
inductive Optional (ts : List Token) : List Lexeme → Bool → Prop
  | absent : Optional ts [] false
  | present {w : List Lexeme} (tokens : w.map Lexeme.token = ts) : Optional ts w true

/-! ### Expressions -/

/-- The operators of a sum. -/
inductive Adds : Token → (Location → Expr → Expr → Expr) → Prop
  | plus : Adds (.symbol .plus) fun l => .arith l .add
  | minus : Adds (.symbol .minus) fun l => .arith l .sub

/-- The operators of a product. -/
inductive Multiplies : Token → (Location → Expr → Expr → Expr) → Prop
  | star : Multiplies (.symbol .star) fun l => .arith l .mul
  | div : Multiplies (.keyword .div) fun l => .arith l .div
  | mod : Multiplies (.keyword .mod) fun l => .arith l .mod

/-- The signs in front of a factor. -/
inductive Signs : Token → Sign → Prop
  | plus : Signs (.symbol .plus) .plus
  | minus : Signs (.symbol .minus) .minus

section

variable (expression : List Lexeme → Expr → Prop)

/-- What can be assigned to: a name or a string with subscripts. -/
inductive Lvalue : List Lexeme → Expr → Prop
  | name {l : Location} {x : String} {w : List Lexeme} {es : List Expr}
      (subscripts : Many (Between expression (.symbol .leftBracket) (.symbol .rightBracket)) w es) :
      Lvalue (⟨.name x, l⟩ :: w) (subscripted (.name l x) es)
  | string {l : Location} {s : String} {w : List Lexeme} {es : List Expr}
      (subscripts : Many (Between expression (.symbol .leftBracket) (.symbol .rightBracket)) w es) :
      Lvalue (⟨.string s, l⟩ :: w) (subscripted (.string l s) es)

inductive Call : List Lexeme → Expr → Prop
  | intro {l : Location} {f : String} {w : List Lexeme} {es : List Expr}
      (arguments : Between (Listed expression (.symbol .comma)) (.symbol .leftParen)
        (.symbol .rightParen) w es) :
      Call (⟨.name f, l⟩ :: w) (.call l f es)

end

/-- What operators join: a sign belongs to the factor after it. -/
inductive Factor : List Lexeme → Expr → Prop
  | int {l : Location} {value : Int32} : Factor [⟨.int value, l⟩] (.int l value)
  | char {l : Location} {byte : UInt8} : Factor [⟨.char byte, l⟩] (.char l byte)
  | place {w : List Lexeme} {e : Expr}
      (inner : Lvalue (Joined (Joined Factor Multiplies) Adds) w e) : Factor w e
  | call {w : List Lexeme} {e : Expr}
      (inner : Call (Joined (Joined Factor Multiplies) Adds) w e) : Factor w e
  | group {w : List Lexeme} {e : Expr}
      (inner : Between (Joined (Joined Factor Multiplies) Adds) (.symbol .leftParen)
        (.symbol .rightParen) w e) : Factor w (.group (start w) e)
  | sign {l : Location} {t : Token} {s : Sign} {w : List Lexeme} {e : Expr} (sign : Signs t s)
      (operand : Factor w e) : Factor (⟨t, l⟩ :: w) (.sign l s e)

/-- Factors joined by `*`, `div` and `mod`. -/
abbrev Term : List Lexeme → Expr → Prop := Joined Factor Multiplies

/-- Terms joined by `+` and `-`. -/
abbrev Expression : List Lexeme → Expr → Prop := Joined Term Adds

/-! ### Conditions -/

/-- The relations of a comparison. -/
inductive Relates : Token → Relation → Prop
  | equal : Relates (.symbol .equal) .equal
  | notEqual : Relates (.symbol .notEqual) .notEqual
  | less : Relates (.symbol .less) .less
  | greater : Relates (.symbol .greater) .greater
  | lessEqual : Relates (.symbol .lessEqual) .lessEqual
  | greaterEqual : Relates (.symbol .greaterEqual) .greaterEqual

inductive Conjoins : Token → (Location → Expr → Expr → Expr) → Prop
  | and : Conjoins (.keyword .and) fun l => .logic l .and

inductive Disjoins : Token → (Location → Expr → Expr → Expr) → Prop
  | or : Disjoins (.keyword .or) fun l => .logic l .or

/-- What connectives join. -/
inductive Negation : List Lexeme → Expr → Prop
  | not {l : Location} {w : List Lexeme} {e : Expr} (operand : Negation w e) :
      Negation (⟨.keyword .not, l⟩ :: w) (.not l e)
  | group {w : List Lexeme} {e : Expr}
      (inner : Between (Joined (Joined Negation Conjoins) Disjoins) (.symbol .leftParen)
        (.symbol .rightParen) w e) : Negation w (.group (start w) e)
  | compare {l : Location} {t : Token} {r : Relation} {w v : List Lexeme} {a b : Expr}
      (left : Expression w a) (relation : Relates t r) (right : Expression v b) :
      Negation (w ++ ⟨t, l⟩ :: v) (.compare (start w) r a b)

/-- Negations joined by `and`. -/
abbrev Conjunction : List Lexeme → Expr → Prop := Joined Negation Conjoins

/-- Conjunctions joined by `or`. -/
abbrev Condition : List Lexeme → Expr → Prop := Joined Conjunction Disjoins

/-! ### Statements -/

inductive Statement : List Lexeme → Stmt → Prop
  | empty {l : Location} : Statement [⟨.symbol .semicolon, l⟩] .empty
  | assign {l l' : Location} {w v : List Lexeme} {a b : Expr} (target : Lvalue Expression w a)
      (value : Expression v b) :
      Statement (w ++ ⟨.symbol .assign, l⟩ :: (v ++ [⟨.symbol .semicolon, l'⟩]))
        (.assign (start w) a b)
  | call {l : Location} {w : List Lexeme} {e : Expr} (call : Call Expression w e) :
      Statement (w ++ [⟨.symbol .semicolon, l⟩]) (.call e)
  | block {w : List Lexeme} {ss : List Stmt}
      (body : Between (Many Statement) (.keyword .begin) (.keyword .«end») w ss) :
      Statement w (.block ss)
  | ifThen {l l' : Location} {w v : List Lexeme} {c : Expr} {s : Stmt} (condition : Condition w c)
      (body : Statement v s) :
      Statement (⟨.keyword .«if», l⟩ :: (w ++ ⟨.keyword .«then», l'⟩ :: v)) (.ifThen c s)
  | ifElse {l l' l'' : Location} {w v u : List Lexeme} {c : Expr} {s s' : Stmt}
      (condition : Condition w c) (body : Statement v s) (otherwise : Statement u s') :
      Statement (⟨.keyword .«if», l⟩ :: (w ++ ⟨.keyword .«then», l'⟩ ::
        (v ++ ⟨.keyword .«else», l''⟩ :: u))) (.ifElse c s s')
  | whileDo {l l' : Location} {w v : List Lexeme} {c : Expr} {s : Stmt} (condition : Condition w c)
      (body : Statement v s) :
      Statement (⟨.keyword .«while», l⟩ :: (w ++ ⟨.keyword .«do», l'⟩ :: v)) (.whileDo c s)
  | returnValue {l l' : Location} {w : List Lexeme} {e : Expr} (value : Expression w e) :
      Statement (⟨.keyword .«return», l⟩ :: (w ++ [⟨.symbol .semicolon, l'⟩])) (.returnValue l e)
  | returnNothing {l l' : Location} :
      Statement [⟨.keyword .«return», l⟩, ⟨.symbol .semicolon, l'⟩] (.returnNothing l)

abbrev Body : List Lexeme → List Stmt → Prop :=
  Between (Many Statement) (.keyword .begin) (.keyword .«end»)

/-! ### Declarations -/

/-- A name that is declared. -/
inductive Name : List Lexeme → DeclaredName → Prop
  | intro {l : Location} {x : String} : Name [⟨.name x, l⟩] ⟨x, l⟩

abbrev Names : List Lexeme → List DeclaredName → Prop := SeparatedBy Name (.symbol .comma)

/-- The types of variables and parameters. -/
inductive Scalar : Token → Ty → Prop
  | int : Scalar (.keyword .int) .int
  | char : Scalar (.keyword .char) .char

/-- The types of results. -/
inductive Result : Token → Ty → Prop
  | scalar {t : Token} {ty : Ty} (scalar : Scalar t ty) : Result t ty
  | nothing : Result (.keyword .nothing) .nothing

/-- The extent of an array, a positive number. -/
inductive Extent : List Lexeme → Nat → Prop
  | intro {l : Location} {value : Int32} (positive : 0 < value) :
      Extent [⟨.int value, l⟩] value.toInt.toNat

/-- The extents of an array, each in brackets. -/
abbrev Extents : List Lexeme → List Nat → Prop :=
  Many (Between Extent (.symbol .leftBracket) (.symbol .rightBracket))

/-- Variables that share a type. -/
inductive Vars : List Lexeme → Decl → Prop
  | intro {l l1 l2 l3 : Location} {w v : List Lexeme} {t : Token} {xs : List DeclaredName} {ty : Ty}
      {sizes : List Nat} (names : Names w xs) (scalar : Scalar t ty) (extents : Extents v sizes) :
      Vars (⟨.keyword .var, l⟩ :: (w ++ ⟨.symbol .colon, l1⟩ :: ⟨t, l2⟩ ::
        (v ++ [⟨.symbol .semicolon, l3⟩]))) (.vars xs ty sizes)

/-- Parameters that share a way of passing and a type. -/
inductive Parameters : List Lexeme → ParameterGroup → Prop
  | intro {l l' : Location} {u w z v : List Lexeme} {t : Token} {byReference isOpen : Bool}
      {xs : List DeclaredName} {ty : Ty} {sizes : List Nat}
      (reference : Optional [.keyword .ref] u byReference) (names : Names w xs)
      (scalar : Scalar t ty)
      (opening : Optional [.symbol .leftBracket, .symbol .rightBracket] z isOpen)
      (extents : Extents v sizes) :
      Parameters (u ++ (w ++ ⟨.symbol .colon, l⟩ :: ⟨t, l'⟩ :: (z ++ v)))
        ⟨byReference, xs, ty, sizes, isOpen⟩

inductive Head : List Lexeme → Header → Prop
  | intro {l l1 l2 l3 : Location} {f : String} {w : List Lexeme} {t : Token}
      {groups : List ParameterGroup} {result : Ty}
      (parameters : Between (Listed Parameters (.symbol .semicolon)) (.symbol .leftParen)
        (.symbol .rightParen) w groups) (type : Result t result) :
      Head (⟨.keyword .function, l⟩ :: ⟨.name f, l1⟩ :: (w ++ [⟨.symbol .colon, l2⟩, ⟨t, l3⟩]))
        ⟨f, l1, groups, result⟩

/-- A declaration inside of a function. -/
inductive Local (function : List Lexeme → Decl → Prop) : List Lexeme → Decl → Prop
  | function {w : List Lexeme} {d : Decl} (inner : function w d) : Local function w d
  | forward {l l' l'' : Location} {w : List Lexeme} {h : Header} (header : Head w h) :
      Local function (w ++ [⟨.symbol .semicolon, l⟩, ⟨.keyword .forward, l'⟩,
        ⟨.symbol .semicolon, l''⟩]) (.forward h)
  | vars {w : List Lexeme} {d : Decl} (inner : Vars w d) : Local function w d

/-- The definition of a function, with an optional semicolon at its end. -/
inductive Function : List Lexeme → Decl → Prop
  | intro {l : Location} {w v u z : List Lexeme} {h : Header} {ds : List Decl} {ss : List Stmt}
      {closed : Bool} (header : Head w h) (locals : Many (Local Function) v ds)
      (body : Body u ss) (closing : Optional [.symbol .semicolon] z closed) :
      Function (w ++ ⟨.symbol .semicolon, l⟩ :: (v ++ (u ++ z))) (.function h ds ss)

/-- A program: one definition of a function and the end of the text. -/
inductive Program : List Lexeme → Decl → Prop
  | intro {l : Location} {w : List Lexeme} {d : Decl} (definition : Function w d) :
      Program (w ++ [⟨.eof, l⟩]) d

/-! ### First lexemes -/

/-- Phrases of a kind start with a token that meets a condition. -/
def Starts {α : Type} (K : List Lexeme → α → Prop) (P : Token → Prop) : Prop :=
  ∀ ⦃w a⦄, K w a → ∃ x v, w = x :: v ∧ P x.token

namespace Starts

variable {α : Type} {K : List Lexeme → α → Prop} {P : Token → Prop}

theorem ne_nil (h : Starts K P) {w : List Lexeme} {a : α} (hw : K w a) : w ≠ [] := by
  obtain ⟨x, v, rfl, -⟩ := h hw
  exact List.cons_ne_nil x v

theorem and (h : Starts K P) (Q : α → Prop) : Starts (fun w a => K w a ∧ Q a) P :=
  fun _ _ hw => h hw.1

theorem joined {K : List Lexeme → Expr → Prop}
    {operator : Token → (Location → Expr → Expr → Expr) → Prop} (h : Starts K P) :
    Starts (Joined K operator) P := by
  intro w e hw
  induction hw with
  | single only => exact h only
  | join left _ _ ih =>
    obtain ⟨x, v, rfl, hx⟩ := ih
    exact ⟨x, _, rfl, hx⟩

theorem separatedBy {separator : Token} (h : Starts K P) : Starts (SeparatedBy K separator) P := by
  rintro w as ⟨first, others⟩
  obtain ⟨x, v, rfl, hx⟩ := h first
  exact ⟨x, _, rfl, hx⟩

end Starts

theorem starts_between {α : Type} {K : List Lexeme → α → Prop} {left right : Token} :
    Starts (Between K left right) (· = left) := by
  rintro w a ⟨inner⟩
  exact ⟨_, _, rfl, rfl⟩

/-- The tokens at the front of a factor. -/
def BeginsFactor : Token → Prop
  | .int _ | .char _ | .string _ | .name _ => True
  | .symbol s => s = .leftParen ∨ s = .plus ∨ s = .minus
  | _ => False

theorem starts_factor : Starts Factor BeginsFactor := by
  intro w e h
  cases h with
  | int => exact ⟨_, _, rfl, trivial⟩
  | char => exact ⟨_, _, rfl, trivial⟩
  | place inner => cases inner <;> exact ⟨_, _, rfl, trivial⟩
  | call inner => cases inner; exact ⟨_, _, rfl, trivial⟩
  | group inner => cases inner; exact ⟨_, _, rfl, .inl rfl⟩
  | sign sign operand =>
    cases sign with
    | plus => exact ⟨_, _, rfl, .inr (.inl rfl)⟩
    | minus => exact ⟨_, _, rfl, .inr (.inr rfl)⟩

theorem starts_expression : Starts Expression BeginsFactor := starts_factor.joined.joined

def BeginsNegation (t : Token) : Prop := t = .keyword .not ∨ BeginsFactor t

theorem starts_negation : Starts Negation BeginsNegation := by
  intro w e h
  cases h with
  | not operand => exact ⟨_, _, rfl, .inl rfl⟩
  | group inner => cases inner; exact ⟨_, _, rfl, .inr (.inl rfl)⟩
  | compare left relation right =>
    obtain ⟨x, v, rfl, hx⟩ := starts_expression left
    exact ⟨x, _, rfl, .inr hx⟩

def BeginsStatement : Token → Prop
  | .name _ | .string _ => True
  | .symbol s => s = .semicolon
  | .keyword k => k = .begin ∨ k = .«if» ∨ k = .«while» ∨ k = .«return»
  | _ => False

theorem starts_statement : Starts Statement BeginsStatement := by
  intro w s h
  cases h with
  | empty => exact ⟨_, _, rfl, rfl⟩
  | assign target value => cases target <;> exact ⟨_, _, rfl, trivial⟩
  | call call => cases call; exact ⟨_, _, rfl, trivial⟩
  | block body => cases body; exact ⟨_, _, rfl, .inl rfl⟩
  | ifThen => exact ⟨_, _, rfl, .inr (.inl rfl)⟩
  | ifElse => exact ⟨_, _, rfl, .inr (.inl rfl)⟩
  | whileDo => exact ⟨_, _, rfl, .inr (.inr (.inl rfl))⟩
  | returnValue => exact ⟨_, _, rfl, .inr (.inr (.inr rfl))⟩
  | returnNothing => exact ⟨_, _, rfl, .inr (.inr (.inr rfl))⟩

end Grammar

end BlockLang
