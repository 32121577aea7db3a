import BlockLang.Token.Scan
import BlockLang.Tree

/-!
# Legible trees

A tree is legible if its names are words, only names and strings have subscripts, a call statement
holds a call, every declaration declares something, and nothing is missing. The trees of programs
are of this kind, and they can be told from their texts.
-/

namespace BlockLang

namespace Expr

mutual

/-- An expression that computes a value. -/
def IsValue : Expr → Prop
  | name .. | int .. | char .. | string .. => True
  | index _ base first more => base.IsValue ∧ first.IsValue ∧ AreValues more
  | call _ _ arguments => AreValues arguments
  | group _ inner => inner.IsValue
  | arith _ _ left right => left.IsValue ∧ right.IsValue
  | sign _ _ operand => operand.IsValue
  | compare .. | logic .. | not .. | missing _ => False

def AreValues : List Expr → Prop
  | [] => True
  | e :: es => e.IsValue ∧ AreValues es

end

theorem areValues_iff {es : List Expr} : AreValues es ↔ ∀ e ∈ es, e.IsValue := by
  induction es with
  | nil => simp [AreValues]
  | cons e es ih => simp [AreValues, ih]

/-- An expression on which a statement branches. -/
def IsCondition : Expr → Prop
  | group _ inner => inner.IsCondition
  | not _ operand => operand.IsCondition
  | logic _ _ left right => left.IsCondition ∧ right.IsCondition
  | compare _ _ left right => left.IsValue ∧ right.IsValue
  | _ => False

def IsCall : Expr → Prop
  | call .. => True
  | _ => False

end Expr

namespace Stmt

mutual

/-- A statement whose expressions are of the kinds that it needs. -/
def IsProper : Stmt → Prop
  | empty | returnNothing _ => True
  | assign _ target value => target.IsValue ∧ value.IsValue
  | call e => e.IsCall ∧ e.IsValue
  | block body => AreProper body
  | ifThen c body => c.IsCondition ∧ body.IsProper
  | ifElse c body otherwise => c.IsCondition ∧ body.IsProper ∧ otherwise.IsProper
  | whileDo c body => c.IsCondition ∧ body.IsProper
  | returnValue _ value => value.IsValue
  | missing _ => False

def AreProper : List Stmt → Prop
  | [] => True
  | s :: ss => s.IsProper ∧ AreProper ss

end

theorem areProper_iff {ss : List Stmt} : AreProper ss ↔ ∀ s ∈ ss, s.IsProper := by
  induction ss with
  | nil => simp [AreProper]
  | cons s ss ih => simp [AreProper, ih]

end Stmt

namespace Decl

mutual

/-- A declaration whose statements are all proper. -/
def IsProper : Decl → Prop
  | function _ locals body => AreProper locals ∧ Stmt.AreProper body
  | forward _ | vars .. => True
  | missing _ => False

def AreProper : List Decl → Prop
  | [] => True
  | d :: ds => d.IsProper ∧ AreProper ds

end

theorem areProper_iff {ds : List Decl} : AreProper ds ↔ ∀ d ∈ ds, d.IsProper := by
  induction ds with
  | nil => simp [AreProper]
  | cons d ds ih => simp [AreProper, ih]

def IsFunction : Decl → Prop
  | function .. => True
  | _ => False

end Decl

/-- A text that can be a name: it is not empty and holds letters, digits and underscores. -/
def IsWord (x : String) : Prop := x.toList ≠ [] ∧ ∀ c ∈ x.toList, Token.isWordRest c

namespace Expr

/-- What subscripts may follow: a name or a string. -/
def IsBase : Expr → Prop
  | name .. | string .. => True
  | _ => False

mutual

/-- A legible expression. -/
def Legible : Expr → Prop
  | name _ x => IsWord x
  | int .. | char .. | string .. => True
  | index _ base first more => base.IsBase ∧ base.Legible ∧ first.Legible ∧ AllLegible more
  | call _ f arguments => IsWord f ∧ AllLegible arguments
  | group _ inner => inner.Legible
  | arith _ _ left right => left.Legible ∧ right.Legible
  | sign _ _ operand => operand.Legible
  | compare _ _ left right => left.Legible ∧ right.Legible
  | logic _ _ left right => left.Legible ∧ right.Legible
  | not _ operand => operand.Legible
  | missing _ => False

def AllLegible : List Expr → Prop
  | [] => True
  | e :: es => e.Legible ∧ AllLegible es

end

theorem allLegible_iff {es : List Expr} : AllLegible es ↔ ∀ e ∈ es, e.Legible := by
  induction es with
  | nil => simp [AllLegible]
  | cons e es ih => simp [AllLegible, ih]

end Expr

namespace Stmt

mutual

def Legible : Stmt → Prop
  | empty | returnNothing _ => True
  | assign _ target value => target.Legible ∧ value.Legible
  | call e => (∃ l f arguments, e = .call l f arguments) ∧ e.Legible
  | block body => AllLegible body
  | ifThen condition body => condition.Legible ∧ body.Legible
  | ifElse condition body otherwise =>
      condition.Legible ∧ body.Legible ∧ otherwise.Legible
  | whileDo condition body => condition.Legible ∧ body.Legible
  | returnValue _ value => value.Legible
  | missing _ => False

def AllLegible : List Stmt → Prop
  | [] => True
  | s :: ss => s.Legible ∧ AllLegible ss

end

theorem allLegible_iff {ss : List Stmt} : AllLegible ss ↔ ∀ s ∈ ss, s.Legible := by
  induction ss with
  | nil => simp [AllLegible]
  | cons s ss ih => simp [AllLegible, ih]

end Stmt

/-- Names that are declared: one or more words that stand in the text. -/
def DeclaredName.Legible (x : DeclaredName) : Prop :=
  IsWord x.text ∧ x.location ≠ .standardLibrary

def Header.Legible (header : Header) : Prop :=
  IsWord header.name ∧ header.location ≠ .standardLibrary ∧
    ∀ group ∈ header.groups, ∀ x ∈ group.names, x.Legible

namespace Decl

mutual

def Legible : Decl → Prop
  | function header locals body => header.Legible ∧ AllLegible locals ∧ Stmt.AllLegible body
  | forward header => header.Legible
  | vars names _ _ => names ≠ [] ∧ ∀ x ∈ names, x.Legible
  | missing _ => False

def AllLegible : List Decl → Prop
  | [] => True
  | d :: ds => d.Legible ∧ AllLegible ds

end

theorem allLegible_iff {ds : List Decl} : AllLegible ds ↔ ∀ d ∈ ds, d.Legible := by
  induction ds with
  | nil => simp [AllLegible]
  | cons d ds ih => simp [AllLegible, ih]

mutual

/-- All functions of a declaration stand in the text. -/
def InText : Decl → Prop
  | function header locals _ => header.location ≠ .standardLibrary ∧ AllInText locals
  | forward header => header.location ≠ .standardLibrary
  | vars .. | missing _ => True

/-- All functions of declarations stand in the text. -/
def AllInText : List Decl → Prop
  | [] => True
  | d :: ds => d.InText ∧ AllInText ds

end

theorem allInText_iff {ds : List Decl} : AllInText ds ↔ ∀ d ∈ ds, d.InText := by
  induction ds with
  | nil => simp [AllInText]
  | cons d ds ih => simp [AllInText, ih]

end Decl

end BlockLang
