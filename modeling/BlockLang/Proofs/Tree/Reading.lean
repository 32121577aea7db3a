import BlockLang.Proofs.Environment.Erasure
import BlockLang.Proofs.Tree.Shown

/-!
# Trees can be read back from their texts

From what the text of a legible tree shows the tree can be built again, but for locations and
for which names are declared together. As what is shown can be told from the text, so can the
tree.
-/

namespace BlockLang

open List Location ParameterGroup Shown

/-! ### Words -/

theorem isPlain_of_isWordRest {c : Char} (h : Token.isWordRest c) : IsPlain c := by
  have hmarks : marks.any Token.isWordRest = false := by decide
  intro hc
  exact any_eq_false.mp hmarks c hc h

theorem wellFormed_word {x : String} (h : IsWord x) (extents : List (Option Nat)) :
    (word x.toList extents).WellFormed := by
  rw [WellFormed]
  exact ⟨h.1, fun c hc => isPlain_of_isWordRest (h.2 c hc)⟩

theorem toList_toString_ofNat (n : Nat) : (toString (Int.ofNat n)).toList = digits n :=
  Nat.toList_repr

theorem toList_toString_negSucc (n : Nat) :
    (toString (Int.negSucc n)).toList = '-' :: digits (n + 1) := by
  change ("-" ++ Nat.repr (n + 1)).toList = _
  rw [String.toList_append, Nat.toList_repr]
  rfl

theorem wellFormed_int (i : Int) : (word (toString i).toList []).WellFormed := by
  have hdigits : ∀ n, ∀ c ∈ digits n, IsPlain c := fun n c hc =>
    isPlain_of_isWordRest (by simp [Token.isWordRest, Char.isAlphanum, isDigit_of_mem_digits hc])
  rw [WellFormed]
  cases i with
  | ofNat n =>
    rw [toList_toString_ofNat]
    exact ⟨digits_ne_nil n, hdigits n⟩
  | negSucc n =>
    rw [toList_toString_negSucc]
    exact ⟨cons_ne_nil _ _, forall_mem_cons.mpr ⟨by decide, hdigits (n + 1)⟩⟩

/-- The number that digits and a sign stand for. -/
def readInt : List Char → Int
  | '-' :: cs => Int.negSucc (Nat.ofDigitChars 10 cs 0 - 1)
  | cs => Int.ofNat (Nat.ofDigitChars 10 cs 0)

theorem readInt_toString (i : Int) : readInt (toString i).toList = i := by
  have hvalue : ∀ n, Nat.ofDigitChars 10 (digits n) 0 = n := fun _ =>
    Nat.ofDigitChars_ten_toDigits
  cases i with
  | ofNat n =>
    rw [toList_toString_ofNat]
    unfold readInt
    split
    · rename_i cs hcs
      have hdigit := isDigit_of_mem_digits (n := n) (hcs ▸ mem_cons_self)
      exact absurd hdigit (by decide)
    · rw [hvalue]
  | negSucc n =>
    rw [toList_toString_negSucc, readInt, hvalue]
    rfl

/-! ### Well-formed words -/

namespace Expr

theorem wellFormed_foldl_index {as : List Shown} (h : ∀ a ∈ as, a.WellFormed) :
    ∀ {t : Shown}, t.WellFormed →
      (as.foldl (fun array subscript => .node .index [array, subscript]) t).WellFormed := by
  induction as with
  | nil => exact fun ht => ht
  | cons a as ih =>
    intro t ht
    obtain ⟨ha, has⟩ := forall_mem_cons.mp h
    exact ih has ⟨ht, ha, trivial⟩

mutual

theorem wellFormed_shown : ∀ e : Expr, e.Legible → e.shown.WellFormed
  | name .., h => ⟨wellFormed_word h [], trivial⟩
  | int _ value, _ => wellFormed_int value.toInt
  | char .., _ => trivial
  | string .., _ => trivial
  | index _ base first more, h =>
    wellFormed_foldl_index (allWellFormed_iff.mp (wellFormed_shownAll more h.2.2.2))
      ⟨base.wellFormed_shown h.2.1, first.wellFormed_shown h.2.2.1, trivial⟩
  | call _ _ arguments, h =>
    ⟨wellFormed_word h.1 [], wellFormed_shownAll arguments h.2, trivial⟩
  | group _ inner, h => ⟨inner.wellFormed_shown h, trivial⟩
  | arith _ _ left right, h => ⟨left.wellFormed_shown h.1, right.wellFormed_shown h.2, trivial⟩
  | sign _ _ operand, h => ⟨operand.wellFormed_shown h, trivial⟩
  | compare _ _ left right, h => ⟨left.wellFormed_shown h.1, right.wellFormed_shown h.2, trivial⟩
  | logic _ _ left right, h => ⟨left.wellFormed_shown h.1, right.wellFormed_shown h.2, trivial⟩
  | not _ operand, h => ⟨operand.wellFormed_shown h, trivial⟩

theorem wellFormed_shownAll : ∀ es : List Expr, AllLegible es →
    AllWellFormed (shownAll es)
  | [], _ => trivial
  | e :: es, h => ⟨e.wellFormed_shown h.1, wellFormed_shownAll es h.2⟩

end

end Expr

namespace Stmt

mutual

theorem wellFormed_shown : ∀ s : Stmt, s.Legible → s.shown.WellFormed
  | empty, _ => ⟨by decide, isPlain_of_mem (by decide)⟩
  | assign _ target value, h => ⟨target.wellFormed_shown h.1, value.wellFormed_shown h.2, trivial⟩
  | call e, h => e.wellFormed_shown h.2
  | block body, h => wellFormed_shownLines body h
  | ifThen condition body, h =>
    ⟨condition.wellFormed_shown h.1, body.wellFormed_shown h.2, trivial⟩
  | ifElse condition body otherwise, h =>
    ⟨condition.wellFormed_shown h.1, body.wellFormed_shown h.2.1,
      otherwise.wellFormed_shown h.2.2, trivial⟩
  | whileDo condition body, h =>
    ⟨condition.wellFormed_shown h.1, body.wellFormed_shown h.2, trivial⟩
  | returnValue _ value, h => ⟨value.wellFormed_shown h, trivial⟩
  | returnNothing _, _ => trivial

theorem wellFormed_shownLines : ∀ ss : List Stmt, AllLegible ss →
    AllWellFormed (shownLines ss)
  | [], _ => trivial
  | s :: ss, h => ⟨⟨s.wellFormed_shown h.1, trivial⟩, wellFormed_shownLines ss h.2⟩

end

end Stmt

theorem wellFormed_passing (byReference : Bool) (ty : Ty) :
    (word (passingText byReference ty).toList []).WellFormed := by
  rw [WellFormed]
  have hword : (passingText byReference ty).toList ≠ [] ∧
      arePlain (passingText byReference ty).toList := by
    cases byReference <;> cases ty <;> decide
  exact ⟨hword.1, isPlain_of_mem hword.2⟩

theorem wellFormed_label (ty : Ty) : (word ty.label.toList []).WellFormed := by
  have h := wellFormed_passing false ty
  simpa [passingText] using h

theorem Header.wellFormed_shown {header : Header} (h : header.Legible) :
    AllWellFormed header.shown := by
  refine ⟨wellFormed_word h.1 [], wellFormed_label header.result, ?_, trivial⟩
  rw [WellFormed, allWellFormed_iff]
  intro a ha
  obtain ⟨group, hgroup, ha⟩ := mem_flatMap.mp ha
  obtain ⟨x, hx, rfl⟩ := mem_map.mp ha
  exact ⟨wellFormed_passing _ _, wellFormed_word (h.2.2 group hgroup x hx).1 _, trivial⟩

namespace Decl

mutual

theorem wellFormed_shown : ∀ d : Decl, d.Legible → AllWellFormed d.shown
  | function header locals body, h => by
    obtain ⟨hname, hresult, hparameters, -⟩ := Header.wellFormed_shown h.1
    exact ⟨⟨hname, hresult, hparameters, wellFormed_shownAll locals h.2.1,
      Stmt.wellFormed_shownLines body h.2.2, trivial⟩, trivial⟩
  | forward header, h => ⟨Header.wellFormed_shown h, trivial⟩
  | vars names ty extents, h => by
    rw [shown, allWellFormed_iff]
    intro a ha
    obtain ⟨x, hx, rfl⟩ := mem_map.mp ha
    exact ⟨wellFormed_label ty, wellFormed_word (h.2 x hx).1 _, trivial⟩

theorem wellFormed_shownAll : ∀ ds : List Decl, AllLegible ds →
    AllWellFormed (shownAll ds)
  | [], _ => trivial
  | d :: ds, h => by
    rw [shownAll, allWellFormed_iff]
    have hd := allWellFormed_iff.mp (d.wellFormed_shown h.1)
    have hds := allWellFormed_iff.mp (wellFormed_shownAll ds h.2)
    exact fun a ha => (mem_append.mp ha).elim (hd a) (hds a)

end

end Decl

/-! ### What is built again -/

namespace Shown

mutual

/-- The expression that is shown. -/
def expr : Shown → Expr
  | word cs _ => .int .start (Int32.ofInt (readInt cs))
  | char byte => .char .start byte
  | string s => .string .start s
  | node .named [word cs _] => .name .start (String.ofList cs)
  | node .index [array, subscript] => Expr.subscript .start array.expr subscript.expr
  | node .call [word cs _, node .arguments es] => .call .start (String.ofList cs) (exprs es)
  | node .grouping [inner] => .group .start inner.expr
  | node (.arith operator) [left, right] => .arith .start operator left.expr right.expr
  | node (.sign s) [operand] => .sign .start s operand.expr
  | node (.compare relation) [left, right] => .compare .start relation left.expr right.expr
  | node (.logic connective) [left, right] => .logic .start connective left.expr right.expr
  | node .not [operand] => .not .start operand.expr
  | _ => .missing 0

def exprs : List Shown → List Expr
  | [] => []
  | a :: as => a.expr :: exprs as

end

mutual

def stmt : Shown → Stmt
  | word _ _ => .empty
  | node .assign [target, value] => .assign .start target.expr value.expr
  | node .branch [condition, body] => .ifThen condition.expr body.stmt
  | node .branch [condition, body, otherwise] =>
      .ifElse condition.expr body.stmt otherwise.stmt
  | node .loop [condition, body] => .whileDo condition.expr body.stmt
  | node .ret [value] => .returnValue .start value.expr
  | node .ret [] => .returnNothing .start
  | block items => .block (stmts items)
  | t => .call t.expr

def stmts : List Shown → List Stmt
  | node .statement [s] :: items => s.stmt :: stmts items
  | _ => []

end

/-- The way of passing and the type that a word stands for. -/
def passing (cs : List Char) : Bool × Ty :=
  ([(false, .int), (false, .char), (false, .nothing), (true, .int), (true, .char),
    (true, .nothing)].find? fun (x : Bool × Ty) => (passingText x.1 x.2).toList = cs).getD
      (false, .nothing)

/-- The parameter that is shown, as a group of its own. -/
def group : Shown → ParameterGroup
  | node .parameter [word cs _, word xs extents] =>
      ⟨(passing cs).1, [⟨String.ofList xs, .start⟩], (passing cs).2, extents.filterMap id,
        extents.head? = some none⟩
  | _ => ⟨false, [], .nothing, [], false⟩

mutual

def decl : Shown → Decl
  | node .function [word f _, word result _, node .parameters ps, node .locals ds, block ss] =>
      .function ⟨String.ofList f, .start, ps.map group, (passing result).2⟩ (decls ds) (stmts ss)
  | node .forward [word f _, word result _, node .parameters ps] =>
      .forward ⟨String.ofList f, .start, ps.map group, (passing result).2⟩
  | node .vars [word cs _, word xs extents] =>
      .vars [⟨String.ofList xs, .start⟩] (passing cs).2 (extents.filterMap id)
  | _ => .missing 0

def decls : List Shown → List Decl
  | [] => []
  | a :: as => a.decl :: decls as

end

theorem decls_eq_map (as : List Shown) : decls as = as.map decl := by
  induction as with
  | nil => rfl
  | cons a as ih => rw [decls, ih, map_cons]

end Shown

/-! ### Expressions and statements -/

namespace Expr

/-- Subscripts that are shown one by one are collected. -/
theorem expr_foldl_index {es : List Expr} (h : ∀ e ∈ es, e.shown.expr = e.erase) :
    ∀ {t : Shown} {base first : Expr} {more : List Expr},
      t.expr = .index .start base first more →
      ((shownAll es).foldl (fun array subscript => .node .index [array, subscript]) t).expr =
        .index .start base first (more ++ eraseAll es) := by
  induction es with
  | nil =>
    intro t base first more ht
    rw [shownAll, eraseAll, append_nil]
    exact ht
  | cons e es ih =>
    intro t base first more ht
    obtain ⟨he, hes⟩ := forall_mem_cons.mp h
    rw [shownAll, foldl_cons, eraseAll]
    have hstep : (node .index [t, e.shown]).expr =
        .index .start base first (more ++ [e.erase]) := by
      rw [expr, ht, he]
      rfl
    rw [ih hes hstep, append_assoc]
    rfl

theorem exprs_shownAll {es : List Expr} (h : ∀ e ∈ es, e.shown.expr = e.erase) :
    exprs (shownAll es) = eraseAll es := by
  induction es with
  | nil => rfl
  | cons e es ih =>
    obtain ⟨he, hes⟩ := forall_mem_cons.mp h
    rw [shownAll, exprs, eraseAll, he, ih hes]

theorem erase_subscript {base : Expr} (h : base.IsBase) (first : Expr) :
    subscript .start base.erase first = .index .start base.erase first [] := by
  cases base with
  | name l x => rfl
  | string l s => rfl
  | _ => exact h.elim

mutual

theorem expr_shown : ∀ e : Expr, e.Legible → e.shown.expr = e.erase
  | name _ x, _ => by simp [shown, expr, erase]
  | int _ value, _ => by rw [shown, expr, erase, readInt_toString, Int32.ofInt_toInt]
  | char _ byte, _ => by simp [shown, expr, erase]
  | string _ s, _ => by simp [shown, expr, erase]
  | index _ base first more, h => by
    have hstart : (node .index [base.shown, first.shown]).expr =
        .index .start base.erase first.erase [] := by
      rw [expr, base.expr_shown h.2.1, first.expr_shown h.2.2.1, erase_subscript h.1]
    rw [shown, erase, expr_foldl_index (all_expr_shown more h.2.2.2) hstart]
    rfl
  | call _ f arguments, h => by
    simp [shown, expr, erase, exprs_shownAll (all_expr_shown arguments h.2)]
  | group _ inner, h => by simp [shown, expr, erase, inner.expr_shown h]
  | arith _ operator left right, h => by
    simp [shown, expr, erase, left.expr_shown h.1, right.expr_shown h.2]
  | sign _ s operand, h => by simp [shown, expr, erase, operand.expr_shown h]
  | compare _ relation left right, h => by
    simp [shown, expr, erase, left.expr_shown h.1, right.expr_shown h.2]
  | logic _ connective left right, h => by
    simp [shown, expr, erase, left.expr_shown h.1, right.expr_shown h.2]
  | not _ operand, h => by simp [shown, expr, erase, operand.expr_shown h]

theorem all_expr_shown : ∀ es : List Expr, AllLegible es → ∀ e ∈ es, e.shown.expr = e.erase
  | [], _ => forall_mem_nil _
  | e :: es, h => forall_mem_cons.mpr ⟨e.expr_shown h.1, all_expr_shown es h.2⟩

end

end Expr

namespace Stmt

mutual

theorem stmt_shown : ∀ s : Stmt, s.Legible → s.shown.stmt = s.erase
  | empty, _ => rfl
  | assign _ target value, h => by
    rw [shown, stmt, erase, target.expr_shown h.1, value.expr_shown h.2]
  | call e, h => by
    obtain ⟨⟨l, f, arguments, rfl⟩, he⟩ := h
    rw [erase, ← Expr.expr_shown _ he]
    rfl
  | block body, h => by rw [shown, stmt, erase, stmts_shownLines body h]
  | ifThen condition body, h => by
    rw [shown, stmt, erase, condition.expr_shown h.1, body.stmt_shown h.2]
  | ifElse condition body otherwise, h => by
    rw [shown, stmt, erase, condition.expr_shown h.1, body.stmt_shown h.2.1,
      otherwise.stmt_shown h.2.2]
  | whileDo condition body, h => by
    rw [shown, stmt, erase, condition.expr_shown h.1, body.stmt_shown h.2]
  | returnValue _ value, h => by rw [shown, stmt, erase, value.expr_shown h]
  | returnNothing _, _ => rfl

theorem stmts_shownLines : ∀ ss : List Stmt, AllLegible ss →
    stmts (shownLines ss) = eraseAll ss
  | [], _ => rfl
  | s :: ss, h => by
    rw [shownLines, stmts, eraseAll, s.stmt_shown h.1, stmts_shownLines ss h.2]

end

end Stmt

/-! ### Declarations -/

theorem passing_passingText (byReference : Bool) (ty : Ty) :
    passing (passingText byReference ty).toList = (byReference, ty) := by
  cases byReference <;> cases ty <;> decide

theorem passing_label (ty : Ty) : passing ty.label.toList = (false, ty) := by
  rw [← passing_passingText false ty]
  simp [passingText]

/-- The parameters of a legible group are built again one by one. -/
theorem ParameterGroup.map_group_shown {group : ParameterGroup}
    (h : ∀ x ∈ group.names, x.Legible) : group.shown.map Shown.group = group.parts := by
  rw [shown, parts, map_map]
  refine map_congr_left fun x hx => ?_
  have hlocation := erase_of_ne (h x hx).2
  simp only [Function.comp, Shown.group, passing_passingText, String.ofList_toList,
    DeclaredName.erase, hlocation]
  cases group.isOpen with
  | true => simp
  | false => cases group.extents <;> simp

theorem Header.erase_eq {header : Header} (h : header.Legible) :
    header.erase = ⟨header.name, .start,
      (header.groups.flatMap ParameterGroup.shown).map Shown.group, header.result⟩ := by
  have hgroups : (header.groups.flatMap ParameterGroup.shown).map Shown.group =
      header.groups.flatMap parts := by
    rw [map_flatMap, flatMap_def, flatMap_def]
    congr 1
    exact map_congr_left fun group hgroup =>
      map_group_shown (h.2.2 group hgroup)
  rw [hgroups, erase, erase_of_ne h.2.1]

namespace Decl

mutual

/-- A legible declaration is built again, one name at a time. -/
theorem map_decl_shown : ∀ d : Decl, d.Legible → d.shown.map decl = d.parts
  | function header locals body, h => by
    rw [shown, parts, map_singleton, Header.erase_eq h.1]
    simp only [Header.shown, cons_append, nil_append, decl, passing_label,
      String.ofList_toList, decls_eq_map, Stmt.stmts_shownLines body h.2.2,
      map_decl_shownAll locals h.2.1]
  | forward header, h => by
    rw [shown, parts, map_singleton, Header.erase_eq h]
    simp only [Header.shown, decl, passing_label, String.ofList_toList]
  | vars names ty extents, h => by
    rw [shown, parts, map_map]
    refine map_congr_left fun x hx => ?_
    simp only [Function.comp, decl, passing_label, String.ofList_toList, DeclaredName.erase,
      erase_of_ne (h.2 x hx).2]
    simp

theorem map_decl_shownAll : ∀ ds : List Decl, AllLegible ds →
    (shownAll ds).map decl = partsAll ds
  | [], _ => rfl
  | d :: ds, h => by
    rw [shownAll, partsAll, map_append, d.map_decl_shown h.1, map_decl_shownAll ds h.2]

end

/-- The text of a legible tree tells the tree, but for locations and for which names are
declared together. -/
theorem parts_eq_of_text_eq {d d' : Decl} (h : d.Legible) (h' : d'.Legible)
    (htext : programText (some d) = programText (some d')) : d.parts = d'.parts := by
  obtain ⟨s, hs, hlist, -⟩ := d.showsText h
  obtain ⟨s', hs', hlist', -⟩ := d'.showsText h'
  have hchars : list d.shown = list d'.shown := by
    rw [← hlist, ← hlist']
    exact congrArg String.toList (by simpa [programText, hs, hs'] using htext)
  have hclosed : list d.shown ++ [')'] = list d'.shown ++ [')'] := by rw [hchars]
  obtain ⟨hshown, -⟩ :=
    list_append_inj d.shown (d.wellFormed_shown h) (d'.wellFormed_shown h') hclosed
  rw [← d.map_decl_shown h, ← d'.map_decl_shown h', hshown]

end Decl

end BlockLang
