import BlockLang.Proofs.Text.Shown
import BlockLang.Proofs.Tree.Legible
import BlockLang.Tree.Text

/-!
# What the text of a tree shows

The text of a tree is made of words, literals, applications and blocks. Declarations stand
between commas one name at a time, so that it does not show which names are declared together.
-/

namespace BlockLang

open List Shown Stmt

variable {es : List Expr} {as : List Shown}

/-! ### What is shown -/

mutual

/-- What the text of an expression is made of. -/
def Expr.shown : Expr → Shown
  | .name _ x => .node .named [.word x.toList []]
  | .int _ value => .word (toString value.toInt).toList []
  | .char _ byte => .char byte
  | .string _ s => .string s
  | .index _ base first more =>
      (Expr.shownAll more).foldl (fun array subscript => .node .index [array, subscript])
        (.node .index [base.shown, first.shown])
  | .call _ f arguments =>
      .node .call [.word f.toList [], .node .arguments (Expr.shownAll arguments)]
  | .group _ inner => .node .grouping [inner.shown]
  | .arith _ operator left right => .node (.arith operator) [left.shown, right.shown]
  | .sign _ s operand => .node (.sign s) [operand.shown]
  | .compare _ relation left right => .node (.compare relation) [left.shown, right.shown]
  | .logic _ connective left right => .node (.logic connective) [left.shown, right.shown]
  | .not _ operand => .node .not [operand.shown]
  | .missing _ => .word missingText.toList []

def Expr.shownAll : List Expr → List Shown
  | [] => []
  | e :: es => e.shown :: Expr.shownAll es

end

mutual

def Stmt.shown : Stmt → Shown
  | .empty => .word "Empty".toList []
  | .assign _ target value => .node .assign [target.shown, value.shown]
  | .call e => e.shown
  | .block body => .block (shownLines body)
  | .ifThen condition body => .node .branch [condition.shown, body.shown]
  | .ifElse condition body otherwise =>
      .node .branch [condition.shown, body.shown, otherwise.shown]
  | .whileDo condition body => .node .loop [condition.shown, body.shown]
  | .returnValue _ value => .node .ret [value.shown]
  | .returnNothing _ => .node .ret []
  | .missing _ => .word missingText.toList []

def Stmt.shownLines : List Stmt → List Shown
  | [] => []
  | s :: ss => .node .statement [s.shown] :: shownLines ss

end

/-- A way of passing and a type, as the text of a parameter shows them. -/
def passingText (byReference : Bool) (ty : Ty) : String :=
  (if byReference then "REF " else "") ++ ty.label

def ParameterGroup.shown (group : ParameterGroup) : List Shown :=
  group.names.map fun x => .node .parameter
    [.word (passingText group.byReference group.ty).toList [],
      .word x.text.toList ((if group.isOpen then [none] else []) ++ group.extents.map some)]

def Header.shown (header : Header) : List Shown :=
  [.word header.name.toList [], .word header.result.label.toList [],
    .node .parameters (header.groups.flatMap ParameterGroup.shown)]

mutual

def Decl.shown : Decl → List Shown
  | .function header locals body =>
      [.node .function (header.shown ++
        [.node .locals (Decl.shownAll locals), .block (shownLines body)])]
  | .forward header => [.node .forward header.shown]
  | .vars names ty extents => names.map fun x =>
      .node .vars [.word ty.label.toList [], .word x.text.toList (extents.map some)]
  | .missing _ => []

def Decl.shownAll : List Decl → List Shown
  | [] => []
  | d :: ds => d.shown ++ Decl.shownAll ds

end

/-! ### Texts -/

namespace Shown

@[simp] theorem chars_word (cs : List Char) (extents : List (Option Nat)) :
    (word cs extents).chars = cs ++ extentsChars extents := by
  rw [chars]

@[simp] theorem extentsChars_nil : extentsChars [] = [] := rfl

@[simp] theorem extentsChars_none (ns : List (Option Nat)) :
    extentsChars (none :: ns) = '[' :: ']' :: extentsChars ns := rfl

@[simp] theorem chars_node_one (label : ShownLabel) (a : Shown) :
    (node label [a]).chars = label.text.toList ++ '(' :: (a.chars ++ [')']) := by
  rw [chars, list, others, append_nil]

@[simp] theorem chars_node_two (label : ShownLabel) (a b : Shown) :
    (node label [a, b]).chars =
      label.text.toList ++ '(' :: (a.chars ++ ',' :: ' ' :: (b.chars ++ [')'])) := by
  simp only [chars, list, others, append_nil, append_assoc, cons_append]

theorem others_of_ne_nil (h : as ≠ []) : others as = ',' :: ' ' :: list as := by
  cases as with
  | nil => exact absurd rfl h
  | cons a as => rfl

theorem list_append (h : as ≠ []) (bs : List Shown) : list (as ++ bs) = list as ++ others bs := by
  have hothers : ∀ as : List Shown, others (as ++ bs) = others as ++ others bs := by
    intro as
    induction as with
    | nil => rfl
    | cons a as ih => simp only [cons_append, others, ih, append_assoc]
  cases as with
  | nil => exact absurd rfl h
  | cons a as => rw [cons_append, list, list, hothers, append_assoc]

/-- Texts between commas, each of which may itself hold parts between commas. -/
theorem toList_commaSeparated {δ : Type} {text : δ → String} {shown : δ → List Shown}
    {ds : List δ} (h : ∀ d ∈ ds, (text d).toList = list (shown d) ∧ shown d ≠ []) :
    (commaSeparated (ds.map text)).toList = list (ds.flatMap shown) := by
  induction ds with
  | nil => simp [commaSeparated, list]
  | cons d ds ih =>
    obtain ⟨⟨htext, hne⟩, hds⟩ := forall_mem_cons.mp h
    rw [flatMap_cons, list_append hne, ← htext]
    cases ds with
    | nil => simp [commaSeparated, others]
    | cons d' ds' =>
      have hne' : (d' :: ds').flatMap shown ≠ [] := by
        rw [flatMap_cons]
        exact append_ne_nil_of_left_ne_nil (hds d' mem_cons_self).2 _
      rw [others_of_ne_nil hne', ← ih hds, commaSeparated, map_cons, map_cons,
        String.intercalate_cons_cons]
      simp [commaSeparated]

theorem toList_commaSeparated_of_map {ss : List String} (h : ss.map String.toList = as.map chars) :
    (commaSeparated ss).toList = list as := by
  have hss : ss = as.map fun a => String.ofList a.chars := by
    have hof := congrArg (List.map String.ofList) h
    rwa [map_map, map_map, String.ofList_comp_toList, map_id] at hof
  have hlist : (commaSeparated (as.map fun a => String.ofList a.chars)).toList =
      list (as.flatMap fun a => [a]) :=
    toList_commaSeparated fun a _ => ⟨by simp [list, others], cons_ne_nil _ _⟩
  rw [hss, hlist, flatMap_singleton']

end Shown

/-! ### Texts of expressions and statements -/

namespace Expr

theorem texts_eq_map (es : List Expr) : texts es = es.map text := by
  induction es with
  | nil => rfl
  | cons e es ih => rw [texts, ih, map_cons]

theorem shownAll_eq_map (es : List Expr) : shownAll es = es.map shown := by
  induction es with
  | nil => rfl
  | cons e es ih => rw [shownAll, ih, map_cons]

/-- Subscripts are shown one by one. -/
theorem toList_foldl_index (h : ∀ e ∈ es, e.text.toList = e.shown.chars) :
    ∀ {s : String} {t : Shown}, s.toList = t.chars →
      ((es.map text).foldl (fun array subscript => "Index(" ++ array ++ ", " ++ subscript ++ ")")
        s).toList =
      ((es.map shown).foldl (fun array subscript => .node .index [array, subscript]) t).chars := by
  induction es with
  | nil => exact fun hs => hs
  | cons e es ih =>
    intro s t hs
    obtain ⟨he, hes⟩ := forall_mem_cons.mp h
    refine ih hes ?_
    simp [hs, he, ShownLabel.text]

theorem toList_commaSeparated (h : ∀ e ∈ es, e.text.toList = e.shown.chars) :
    (commaSeparated (texts es)).toList = list (shownAll es) := by
  refine toList_commaSeparated_of_map ?_
  rw [texts_eq_map, shownAll_eq_map, map_map, map_map]
  exact map_congr_left h

mutual

theorem toList_text : ∀ e : Expr, e.text.toList = e.shown.chars
  | name _ x => by simp [text, shown, ShownLabel.text]
  | int _ value => by simp [text, shown]
  | char _ byte => by simp [text, shown, chars]
  | string _ s => by simp [text, shown, chars, EscapeStyle.text]
  | index _ base first more => by
    rw [text, shown, texts_eq_map, shownAll_eq_map]
    refine toList_foldl_index (toList_texts more) ?_
    simp [ShownLabel.text, base.toList_text, first.toList_text]
  | call _ f arguments => by
    have harguments := toList_commaSeparated (toList_texts arguments)
    simp [text, shown, ShownLabel.text, harguments, chars]
  | group _ inner => by simp [text, shown, ShownLabel.text, inner.toList_text]
  | arith _ operator left right => by
    simp [text, shown, ShownLabel.text, left.toList_text, right.toList_text]
  | sign _ s operand => by simp [text, shown, ShownLabel.text, operand.toList_text]
  | compare _ relation left right => by
    simp [text, shown, ShownLabel.text, left.toList_text, right.toList_text]
  | logic _ connective left right => by
    simp [text, shown, ShownLabel.text, left.toList_text, right.toList_text]
  | not _ operand => by simp [text, shown, ShownLabel.text, operand.toList_text]
  | missing _ => by simp [text, shown]

theorem toList_texts : ∀ es : List Expr, ∀ e ∈ es, e.text.toList = e.shown.chars
  | [] => forall_mem_nil _
  | e :: es => forall_mem_cons.mpr ⟨e.toList_text, toList_texts es⟩

end

end Expr

namespace Stmt

mutual

theorem toList_text : ∀ s : Stmt, s.text.toList = s.shown.chars
  | empty => by simp [text, shown]
  | assign _ target value => by
    simp [text, shown, ShownLabel.text, target.toList_text, value.toList_text]
  | call e => e.toList_text
  | block body => by simp [text, shown, Shown.chars, Shown.blockFront, toList_lines body]
  | ifThen condition body => by
    simp [text, shown, ShownLabel.text, condition.toList_text, body.toList_text]
  | ifElse condition body otherwise => by
    simp [text, shown, ShownLabel.text, chars, list, others,
      condition.toList_text, body.toList_text, otherwise.toList_text]
  | whileDo condition body => by
    simp [text, shown, ShownLabel.text, condition.toList_text, body.toList_text]
  | returnValue _ value => by simp [text, shown, ShownLabel.text, value.toList_text]
  | returnNothing _ => by simp [text, shown, ShownLabel.text, chars, list]
  | missing _ => by simp [text, shown]

theorem toList_lines : ∀ ss : List Stmt, (lines ss).toList = Shown.lines (shownLines ss)
  | [] => by simp [lines, shownLines, Shown.lines]
  | s :: ss => by
    simp [lines, shownLines, Shown.lines, ShownLabel.text, s.toList_text, toList_lines ss]

end

end Stmt

/-! ### Texts of declarations -/

theorem toList_extentsText (extents : List Nat) :
    (extentsText extents).toList = extentsChars (extents.map some) := by
  induction extents with
  | nil => simp [extentsText]
  | cons n ns ih =>
    have hcons : (extentsText (n :: ns)).toList =
        '[' :: ((toString n).toList ++ ']' :: (extentsText ns).toList) := by
      simp [extentsText]
    rw [hcons, ih, toList_toString]
    rfl

namespace ParameterGroup

theorem map_toList_texts (group : ParameterGroup) :
    group.texts.map String.toList = group.shown.map chars := by
  simp only [texts, shown, map_map]
  congr 1
  funext x
  cases group.isOpen <;> simp [ShownLabel.text, passingText, toList_extentsText]

end ParameterGroup

theorem Header.toList_text (header : Header) : header.text.toList = list header.shown := by
  have hgroups : (commaSeparated (header.groups.flatMap ParameterGroup.texts)).toList =
      list (header.groups.flatMap ParameterGroup.shown) := by
    refine toList_commaSeparated_of_map ?_
    rw [map_flatMap, map_flatMap]
    congr 1
    funext group
    exact group.map_toList_texts
  simp [text, shown, list, others, chars, ShownLabel.text, hgroups]

namespace Decl

/-- The text of a declaration is that of what is shown, and something is shown. -/
def ShowsText (d : Decl) : Prop :=
  ∃ s, d.text? = some s ∧ s.toList = list d.shown ∧ d.shown ≠ []

theorem shownAll_eq_flatMap (ds : List Decl) : shownAll ds = ds.flatMap shown := by
  induction ds with
  | nil => rfl
  | cons d ds ih => rw [shownAll, ih, flatMap_cons]

theorem toList_commaSeparated {ds : List Decl} (h : ∀ d ∈ ds, d.ShowsText) :
    (commaSeparated (texts ds)).toList = list (shownAll ds) := by
  have htexts : texts ds = ds.map fun d => d.text?.getD "" := by
    induction ds with
    | nil => rfl
    | cons d ds ih =>
      obtain ⟨⟨s, hs, -⟩, hds⟩ := forall_mem_cons.mp h
      rw [texts, ih hds, map_cons, hs]
      rfl
  rw [htexts, shownAll_eq_flatMap]
  refine Shown.toList_commaSeparated fun d hd => ?_
  obtain ⟨s, hs, hlist, hne⟩ := h d hd
  exact ⟨by rw [hs, Option.getD_some, hlist], hne⟩

theorem showsText_vars {names : List DeclaredName} (h : names ≠ []) (ty : Ty)
    (extents : List Nat) : (vars names ty extents).ShowsText := by
  refine ⟨_, rfl, toList_commaSeparated_of_map ?_, by simpa [shown] using h⟩
  rw [shown, map_map, map_map]
  congr 1
  funext x
  simp [ShownLabel.text, toList_extentsText]

mutual

theorem showsText : ∀ d : Decl, d.Legible → d.ShowsText
  | function header locals body, h => by
    have hlocals := toList_commaSeparated (allShowText locals h.2.1)
    refine ⟨_, rfl, ?_, cons_ne_nil _ _⟩
    simp [shown, Shown.list, Shown.others, Shown.chars, ShownLabel.text, header.toList_text,
      hlocals, text, toList_lines, Header.shown, Shown.blockFront]
  | forward header, _ => by
    refine ⟨_, rfl, ?_, cons_ne_nil _ _⟩
    simp [shown, Shown.list, Shown.others, Shown.chars, ShownLabel.text, header.toList_text]
  | vars names ty extents, h => showsText_vars h.1 ty extents

theorem allShowText : ∀ ds : List Decl, AllLegible ds → ∀ d ∈ ds, d.ShowsText
  | [], _ => forall_mem_nil _
  | d :: ds, h => forall_mem_cons.mpr ⟨d.showsText h.1, allShowText ds h.2⟩

end

end Decl

end BlockLang
