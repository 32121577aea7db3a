import BlockLang.Proofs.Emit.Growth
import BlockLang.Proofs.Simulation.Basic

/-!
# The code of expressions and conditions follows their meaning

The machine that runs the code of an expression arrives behind that code, and the operand stands
for what the expression denotes. Values are read late, by the quad that uses them. The machine that
runs the code of a condition arrives at one of the two targets of its exits.
-/

namespace BlockLang

open AgreeBelow Eval Function Int32 List Machine Progress

variable {operator : Arith} {code : Code} {array c : Computed} {d : Denoted} {e : Expr}
  {es : List Expr} {ns : List Nat} {l : Location} {bound n : Nat} {temps : Nat → Word}
  {a b o offset : Operand} {p p' : Progress} {s : Store} {w : Word}

/-! ### Numbers of cells -/

/-- The number of a row from the number of the row before further subscripts, with the
extents that belong to these. -/
def rowNumber : Word → List Nat → List Word → Word
  | w, _, [] => w
  | w, ns, i :: is => rowNumber (w * .ofNat (ns.headD 0) + i) ns.tail is

/-- Multiplying step by step gives the same number as counting row by row. -/
theorem rowNumber_mul_prod {is : List Word} {k : Nat} (h : cellNumber? ns is = some k) (w : Word) :
    rowNumber w ns is * .ofNat (ns.drop is.length).prod = w * .ofNat ns.prod + .ofNat k := by
  -- `w` counts the rows that the subscripts before have passed
  induction is generalizing ns k w with
  | nil =>
    cases ns <;> cases h <;> simp [rowNumber]
  | cons i is ih =>
    cases ns with
    | nil => cases h
    | cons n ns =>
      rw [cellNumber?] at h
      split at h
      · rename_i hi
        obtain ⟨k', hk', rfl⟩ := Option.map_eq_some_iff.mp h
        have hofNat : ofNat i.toInt.toNat = i :=
          ofNat_toNatClampNeg i (le_iff_toInt_le.mpr hi.1)
        rw [rowNumber, length_cons, drop_succ_cons, headD_cons, tail_cons,
          ih hk', prod_cons, ofNat_mul, ofNat_add, ofNat_mul, hofNat]
        -- what is left is distributivity of words
        grind
      · cases h

theorem rowCells?_eq_some {extents : List Nat} (h : Emit.rowCells? extents = some n) :
    n = extents.prod := by
  suffices hfold : ∀ (start : Nat), extents.foldlM (fun cells n =>
      if cells * n < Emit.countLimit then some (cells * n) else none) start = some n →
      n = start * extents.prod by
    simpa using hfold 1 h
  clear h
  induction extents with
  | nil =>
    intro start h
    cases h
    simp
  | cons m ms ih =>
    intro start h
    rw [foldlM_cons] at h
    split at h
    · rw [ih _ h, prod_cons, Nat.mul_assoc]
    · cases h

/-! ### Continued code -/

/-- The code was continued in the same environment. -/
structure Progress.Continues (p p' : Progress) : Prop where
  code : p.code.Continues p'.code
  env : p'.env = p.env

namespace Progress.Continues

variable {p p1 p2 : Progress}

theorem refl (p : Progress) : p.Continues p := ⟨.refl _, rfl⟩

theorem trans (h : p.Continues p1) (h' : p1.Continues p2) : p.Continues p2 :=
  ⟨h.code.trans h'.code, h'.env.trans h.env⟩

theorem size_le (h : p.Continues p1) : p.code.temps.size ≤ p1.code.temps.size :=
  h.code.ext.size_le

theorem of_emits {lo : Nat} {l : List Nat} (h : p.Emits lo p1 l) : p.Continues p1 :=
  ⟨h.grows.continues, h.env_eq⟩

end Progress.Continues

namespace Emit

variable {p p' : Progress}

theorem expression_continues (h : expression e p = .ok c p') :
    p.Continues p' := .of_emits (expression_emits e (Nat.zero_le _) h).1

theorem arithmetic_continues (h : arithmetic operator a b p = .ok o p') : p.Continues p' := by
  cases h
  exact ⟨(Code.Continues.newTemp _ _).trans (.push _ _), rfl⟩

theorem rowOffset_continues (h : rowOffset l ns offset es p = .ok o p') : p.Continues p' := by
  induction es generalizing p ns offset with
  | nil =>
    rw [rowOffset] at h
    cases h
    exact .refl _
  | cons e es ih =>
    obtain ⟨i, p1, scaled, p2, sum, p3, hi, -, -, hscaled, hsum, hrest⟩ := rowOffset_cons_ok h
    exact (expression_continues hi).trans
      ((arithmetic_continues hscaled).trans ((arithmetic_continues hsum).trans (ih hrest)))

theorem rowStart_continues (h : rowStart l offset ns p = .ok o p') : p.Continues p' := by
  obtain ⟨-, -, rfl⟩ | ⟨n, -, -, hmul⟩ := rowStart_ok h
  · exact .refl _
  · exact arithmetic_continues hmul

theorem element_continues (h : element array ns offset p = .ok c p') : p.Continues p' := by
  cases h
  exact ⟨(Code.Continues.newCell _ _ _).trans (.push _ _), rfl⟩

theorem argumentsOf_continues {f : FunctionDecl} {qs : List Parameter} {as : List Argument}
    (h : argumentsOf f qs es p = .ok as p') : p.Continues p' :=
  .of_emits (argumentsOf_emits f qs es (Nat.zero_le _) h).1

/-- The quad of an operation stands in the completed code. -/
theorem arithmetic_quad (h : arithmetic operator a b p = .ok o p') (hC : p'.code.Continues code) :
    o = .temp p.code.temps.size ∧ p'.code.next = p.code.next + 1 ∧
      p'.code.temps.size = p.code.temps.size + 1 ∧
      code.quads[p.code.next]? = some (arithQuad operator a b p.code.temps.size) := by
  cases h
  refine ⟨rfl, Code.next_push, Array.size_push _, hC.of_not_pending ?_ nofun⟩
  exact Code.getElem?_push_next

/-- The address of a cell or a row is kept in a new temporary, which is recorded with the type
of the cells and the number of extents left. -/
theorem element_quad (h : element array ns offset p = .ok c p') (hC : p'.code.Continues code) :
    c = ⟨⟨array.shape.ty, ns⟩, .cell p.code.temps.size, true⟩ ∧
      p'.code.next = p.code.next + 1 ∧ p'.code.temps.size = p.code.temps.size + 1 ∧
      code.temps[p.code.temps.size]? = some .int ∧
      code.cell? p.code.temps.size = some ⟨array.shape.ty, ns.length⟩ ∧
      code.quads[p.code.next]? = some (elementQuad array.operand offset p.code.temps.size) := by
  cases h
  refine ⟨rfl, Code.next_push, by simp, hC.ext.temps _ _ (by simp), ?_,
    hC.of_not_pending Code.getElem?_push_next nofun⟩
  rw [hC.ext.cell? _ (by simp)]
  simp [Code.cell?_describe]

end Emit

/-! ### Expressions -/

/-- The machine is behind the code of an expression, and the operand stands for what
the expression denotes. The temporaries in use before have been left alone. -/
def Computed.Arrives (ctx : Context) (code : Code) (p p' : Progress) (temps : Nat → Word)
    (c : Computed) (d : Denoted) (s : Store) (m : Machine) : Prop :=
  ∃ temps', m = .idle p'.code.next temps' s ∧ AgreeBelow p.code.temps.size temps temps' ∧
    c.operand.Denotes ctx code p'.code.temps.size temps' d ∧ d.Fits c.shape

namespace Emit

variable {ctx : Context} {code : Code}

theorem named_arrives {x : String} (h : named l x p = .ok c p') (henv : p.env = ctx.env)
    (temps : Nat → Word) (s : Store) :
    (idle p.code.next temps s).Follows ctx code (c.Arrives ctx code p p' temps)
      (ofOption (ctx.place? x) s) := by
  obtain ⟨rfl, b, hb, hcases⟩ := named_ok h
  rw [henv] at hb
  rcases hcases with ⟨v, hv, rfl⟩ | ⟨q, hq, rfl⟩
  · have hplace : ctx.place? x = some (.place ⟨v.ty, v.extents⟩ (ctx.address x)) := by
      simp [Context.place?, hb, hv]
    rw [hplace]
    exact ⟨_, .refl _, temps, rfl, .refl _ _, .name hplace, rfl, rfl, rfl⟩
  · have hplace : ctx.place? x = some (.place ⟨q.ty,
        if q.isOpen then ctx.rows x :: q.extents else q.extents⟩ (ctx.address x)) := by
      simp [Context.place?, hb, hq]
    rw [hplace]
    refine ⟨_, .refl _, temps, rfl, .refl _ _, .name hplace, rfl, ?_⟩
    -- the rows of an open parameter are counted in the context only
    cases hopen : q.isOpen <;> simp [Parameter.shape, hopen]

theorem arithmetic_reaches {x y : Word} (h : arithmetic operator a b p = .ok o p')
    (hC : p'.code.Continues code)
    (ha : (idle p.code.next temps s).value? ctx code a = some x)
    (hb : (idle p.code.next temps s).value? ctx code b = some y)
    (hw : operator.compute? x y = some w) :
    (idle p.code.next temps s).Reaches ctx code
      (.idle p'.code.next (update temps p.code.temps.size w) s) := by
  obtain ⟨-, hnext, -, hq⟩ := arithmetic_quad h hC
  refine .single ((step?_arith hq).trans ?_)
  simp only [ha, hb, hw, hnext, Option.bind_eq_bind, Option.bind_some]
  rfl

section Offset

variable (hC : p'.code.Continues code)
  (hoffset : (idle p.code.next temps s).value? ctx code offset = some w)

include hC hoffset

/-- The address of a cell or a row is computed from that of its array. -/
theorem element_step {a : Word} (h : element array ns offset p = .ok c p')
    (harray : (idle p.code.next temps s).address? ctx array.operand = some a) :
    (idle p.code.next temps s).step? ctx code = some (.idle p'.code.next
      (update temps p.code.temps.size (a + .ofNat array.shape.ty.size * w)) s) := by
  obtain ⟨-, hnext, -, -, hinfo, hq⟩ := element_quad h hC
  refine (step?_array hq hinfo).trans ?_
  simp only [harray, hoffset, Option.bind_eq_bind, Option.bind_some, hnext]
  rfl

theorem element_reaches {shape : Shape} {a : Word} (h : element array ns offset p = .ok c p')
    (harray : array.operand.Denotes ctx code p.code.temps.size temps (.place shape a))
    (hty : shape.ty = array.shape.ty) :
    ∃ temps', (idle p.code.next temps s).Reaches ctx code (.idle p'.code.next temps' s) ∧
      AgreeBelow p.code.temps.size temps temps' ∧
      c.operand.Denotes ctx code p'.code.temps.size temps'
        (.place ⟨shape.ty, ns⟩ (a + .ofNat shape.ty.size * w)) ∧
      c.shape = ⟨shape.ty, ns⟩ := by
  obtain ⟨rfl, -, hsize, -, hinfo, -⟩ := element_quad h hC
  have haddress : (idle p.code.next temps s).address? ctx array.operand = some a :=
    harray.address?
  refine ⟨_, .single (element_step hC hoffset h haddress),
    (refl _ _).update (Nat.le_refl _) _, ?_, ?_⟩
  · rw [← hty] at hinfo ⊢
    have hcell : Operand.Denotes ctx code p'.code.temps.size
        (update temps p.code.temps.size (a + .ofNat shape.ty.size * w))
        (.cell p.code.temps.size) (.place ⟨shape.ty, ns⟩ _) := .cell (by omega) hinfo
    rwa [update_self] at hcell
  · rw [hty]

/-- The first cell of a row that subscripts select. -/
theorem rowStart_reaches (h : rowStart l offset ns p = .ok o p') :
    ∃ temps', (idle p.code.next temps s).Reaches ctx code (.idle p'.code.next temps' s) ∧
      AgreeBelow p.code.temps.size temps temps' ∧
      (idle p'.code.next temps' s).value? ctx code o = some (w * .ofNat ns.prod) := by
  obtain ⟨rfl, rfl, rfl⟩ | ⟨n, hn, -, hmul⟩ := rowStart_ok h
  · refine ⟨temps, .refl _, .refl _ _, ?_⟩
    rw [hoffset, prod_nil, show ofNat 1 = 1 from rfl, mul_one]
  · obtain rfl := rowCells?_eq_some hn
    obtain ⟨rfl, -⟩ := arithmetic_quad hmul hC
    exact ⟨_, arithmetic_reaches hmul hC hoffset rfl rfl,
      (refl _ _).update (Nat.le_refl _) _, value?_temp _ _ _ _ _⟩

end Offset

/-- An operand is the sum of a base and the value of `d`, as long as its temporaries are
left alone. -/
def CountsFrom (ctx : Context) (code : Code) (bound : Nat) (temps : Nat → Word) (base : Word)
    (d : Denoted) (o : Operand) : Prop :=
  ∀ temps', AgreeBelow bound temps temps' → ∀ q s, ∃ i, d.read? s = some i ∧
    (idle q temps' s).value? ctx code o = some (base + i)

theorem countsFrom_zero (h : c.operand.Denotes ctx code bound temps d) (hfits : d.Fits c.shape)
    (hs : c.isScalar .int) : CountsFrom ctx code bound temps 0 d c.operand := by
  intro temps' ha q s
  obtain ⟨w, hw⟩ := hfits.read? (Computed.extents_of_isScalar hs) s
  refine ⟨w, hw, ?_⟩
  rw [value?_idle q s (h.mono ha (Nat.le_refl _)), hw, Int32.zero_add]

theorem countsFrom_temp {base : Word} (hn : n < bound) (h : temps n = base + w) :
    CountsFrom ctx code bound temps base (.value w) (.temp n) :=
  fun _ ha _ _ => ⟨w, rfl, congrArg some ((ha n hn).trans h)⟩

/-- A further subscript: the number of the row is multiplied by the extent, then the
subscript is added. -/
theorem rowStep_reaches {p1 p2 : Progress} {index scaled sum : Operand} {n j : Word}
    (hscaled : arithmetic .mul offset (.int n) p = .ok scaled p1)
    (hsum : arithmetic .add scaled index p1 = .ok sum p2) (hC : p2.code.Continues code)
    (hoffset : (idle p.code.next temps s).value? ctx code offset = some w)
    (hindex : index.Denotes ctx code p.code.temps.size temps d) (hj : d.read? s = some j) :
    ∃ temps', (idle p.code.next temps s).Reaches ctx code (.idle p2.code.next temps' s) ∧
      AgreeBelow p.code.temps.size temps temps' ∧
      CountsFrom ctx code p2.code.temps.size temps' (w * n) (.value j) sum ∧
      temps' p.code.temps.size = w * n ∧ temps' p1.code.temps.size = w * n + j := by
  have hC1 := (arithmetic_continues hsum).code.trans hC
  obtain ⟨rfl, -, hsize1, -⟩ := arithmetic_quad hscaled hC1
  obtain ⟨rfl, -, hsize2, -⟩ := arithmetic_quad hsum hC
  have agree1 := (refl p.code.temps.size temps).update (Nat.le_refl _) (w * n)
  have hindex1 := (value?_idle p1.code.next s
    (hindex.mono agree1 (arithmetic_continues hscaled).size_le)).trans hj
  have reach1 := arithmetic_reaches hscaled hC1 hoffset rfl rfl
  have reach2 := arithmetic_reaches hsum hC (value?_temp _ _ _ _ _) hindex1 rfl
  have hfirst : p.code.temps.size ≠ p1.code.temps.size := by omega
  exact ⟨_, reach1.trans reach2, agree1.update (by omega) _,
    countsFrom_temp (by omega) (update_self _ _ _),
    (update_of_ne hfirst _ _).trans (update_self _ _ _),
    update_self _ _ _⟩

/-- The machine has the number of a row from subscripts. -/
def ArrivesAtRow (ctx : Context) (code : Code) (p p' : Progress) (temps : Nat → Word)
    (base : Word) (ns : List Nat) (count : Nat) (o : Operand) (js : List Word) (s : Store)
    (m : Machine) : Prop :=
  ∃ temps' i is, js = i :: is ∧ is.length = count ∧ m = .idle p'.code.next temps' s ∧
    AgreeBelow p.code.temps.size temps temps' ∧
    m.value? ctx code o = some (rowNumber (base + i) ns is)

/-- The machine has evaluated the arguments of a call and read none of them. -/
def ArrivesWithArguments (ctx : Context) (code : Code) (p p' : Progress) (temps : Nat → Word)
    (as : List Argument) (ds : List (Bool × Denoted)) (s : Store) (m : Machine) : Prop :=
  ∃ temps', m = .idle p'.code.next temps' s ∧ AgreeBelow p.code.temps.size temps temps' ∧
    List.Forall₂ (fun a x => a.byReference = x.1 ∧
      a.value.Denotes ctx code p'.code.temps.size temps' x.2) as ds

theorem resultCallQuads_not_pending (as : List Argument) (n : Nat) (label : FunctionLabel) :
    ∀ q ∈ resultCallQuads as n label, q.output ≠ some .pending := by
  intro q hq
  simp only [resultCallQuads, mem_append, mem_map, mem_cons, not_mem_nil,
    or_false] at hq
  rcases hq with ⟨a, -, rfl⟩ | rfl | rfl <;> simp [argumentQuad, destinationQuad, callQuadOf]

/-- The address of a cell is that of its array and the number of bytes in front of
it, unless a subscript is out of range. -/
theorem select_run (shape : Shape) (a i : Word) (is : List Word) (s : Store) :
    (Denoted.place shape a).select (i :: is) s = .error .outOfRange ∨
      (Denoted.place shape a).select (i :: is) s =
        .ok (.place ⟨shape.ty, shape.extents.drop (is.length + 1)⟩
          (a + .ofNat shape.ty.size * (rowNumber i shape.extents.tail is *
            .ofNat (shape.extents.drop (is.length + 1)).prod)), s) := by
  obtain ⟨ty, extents⟩ := shape
  rw [Denoted.select]
  cases hk : cellNumber? extents (i :: is) with
  | none => exact .inl rfl
  | some k =>
    cases extents with
    | nil => cases hk
    | cons n ns =>
      have hrow := rowNumber_mul_prod hk 0
      rw [rowNumber] at hrow
      simp only [headD_cons, tail_cons, length_cons, drop_succ_cons,
        Int32.zero_mul, Int32.zero_add] at hrow ⊢
      rw [hrow, Int32.ofNat_mul]
      exact .inr rfl

mutual

/-- The code of an expression follows its meaning, with values read late. -/
theorem expression_follows : ∀ (e : Expr) {p p' : Progress} {c : Computed},
    expression e p = .ok c p' → p.env = ctx.env → p'.code.Continues code →
      ∀ (temps : Nat → Word) (s : Store),
        (idle p.code.next temps s).Follows ctx code (c.Arrives ctx code p p' temps)
          (e.denote ctx .late s)
  | .name l x, p, p', c, h, henv, hC, temps, s => by
    rw [Expr.denote]
    exact named_arrives (by rwa [expression] at h) henv temps s
  | .int l w, p, p', c, h, henv, hC, temps, s => by
    rw [expression] at h
    cases h
    rw [Expr.denote]
    exact ⟨_, .refl _, temps, rfl, .refl _ _, .int w, rfl⟩
  | .char l b, p, p', c, h, henv, hC, temps, s => by
    rw [expression] at h
    cases h
    rw [Expr.denote]
    exact ⟨_, .refl _, temps, rfl, .refl _ _, .char b, rfl⟩
  | .string l text, p, p', c, h, henv, hC, temps, s => by
    rw [expression] at h
    cases h
    rw [Expr.denote]
    exact ⟨_, .refl _, temps, rfl, .refl _ _, .string text, rfl, rfl, rfl⟩
  | .index l base first more, p, p', c, h, henv, hC, temps, s => by
    obtain ⟨array, p1, i, p2, offset, p3, start, p4, harray, hne, -, hi, hs, hoff, hstart, hc⟩ :=
      expression_index_ok h
    have c1 := expression_continues harray
    have c2 := expression_continues hi
    have c3 := rowOffset_continues hoff
    have c4 := rowStart_continues hstart
    have hC4 := (element_continues hc).code.trans hC
    have hC3 := c4.code.trans hC4
    have hC2 := c3.code.trans hC3
    rw [Expr.denote]
    -- the array and the first subscript are evaluated, and neither is read yet
    refine (expression_follows base harray henv (c2.code.trans hC2) temps s).bind ?_
    rintro d s1 _ ⟨temps1, rfl, agree1, den1, fits1⟩
    refine (expression_follows first hi (c1.env.trans henv) hC2 temps1 s1).bind ?_
    rintro d2 s2 _ ⟨temps2, rfl, agree2, den2, fits2⟩
    rw [settle_late_bind]
    refine (subscripts_follows l more 0 hoff (c2.env.trans (c1.env.trans henv)) hC3 temps2 s2
      (countsFrom_zero den2 fits2 hs)).bind ?_
    rintro _ s3 _ ⟨temps3, w, ws, rfl, hlen, rfl, agree3, hval3⟩
    rw [Int32.zero_add] at hval3
    -- a value has no extents, so it was not accepted as an array
    cases d with
    | value v => exact absurd fits1 hne
    | place shape a =>
      obtain ⟨hty, hsize, htail⟩ := fits1
      obtain ⟨temps4, reach4, agree4, hval4⟩ := rowStart_reaches hC4 hval3 hstart
      have agree24 := agree2.trans (agree3.trans agree4 c3.size_le) c2.size_le
      have den4 := den1.mono agree24 (c2.trans (c3.trans c4)).size_le
      obtain ⟨temps5, reach5, agree5, den5, hshape⟩ := element_reaches hC hval4 hc den4 hty
      -- the quads compute an address also for subscripts that are out of range
      rcases select_run shape a w ws s3 with hsel | hsel
      · rw [hsel]
        trivial
      · have hdrop : shape.extents.drop (ws.length + 1) =
            array.shape.extents.drop (more.length + 1) := by
          rw [← drop_tail, htail, drop_tail, hlen]
        rw [hsel, hdrop, htail, ← drop_one]
        refine ⟨_, reach4.trans reach5, temps5, rfl, ?_, den5, ?_⟩
        · exact agree1.trans (agree24.trans agree5 (c2.trans (c3.trans c4)).size_le) c1.size_le
        · rw [hshape]
          exact ⟨rfl, rfl, rfl⟩
  | .call l f arguments, p, p', c, h, henv, hC, temps, s => by
    obtain ⟨g, scope, as, q, hg, has, rfl, rfl⟩ := expression_call_ok h
    obtain ⟨-, hfind, -, -⟩ := callee_ok hg
    have c1 := argumentsOf_continues has
    rw [code_appendedAll] at hC
    have hCq := (Code.Continues.newTemp q.code g.result).trans
      ((Code.Continues.pushAll _ _).trans hC)
    have hstands : code.Stands (q.code.newTemp g.result).next (resultCallQuads as
        q.code.temps.size (calleeLabel g scope)) :=
      .of_pushAll hC (resultCallQuads_not_pending _ _ _)
    rw [Code.next_newTemp] at hstands
    rw [Expr.denote, ← henv, hfind]
    -- the arguments are handed over when all of them have been evaluated
    refine (arguments_follows g g.parameters arguments has henv hCq temps s).bind ?_
    rintro ds s1 _ ⟨temps1, rfl, agree1, hds⟩
    refine follows_passAll hstands.left hds fun xs => ?_
    rw [nil_append]
    have hcall := hstands.right
    rw [length_map] at hcall
    refine .step (step?_destination hcall.head)
      (follows_call hcall.tail.head fun w s2 => ?_)
    refine ⟨_, .refl _, _, ?_, agree1.update c1.size_le w, ?_, rfl⟩
    · rw [code_appendedAll, Code.next_pushAll]
      simp [resultCallQuads, Nat.add_assoc]
    · rw [code_appendedAll]
      exact .temp_update (by simp [Code.pushAll]) w
  | .group l inner, p, p', c, h, henv, hC, temps, s => by
    obtain ⟨x, hx, rfl⟩ := expression_group_ok h
    rw [Expr.denote]
    exact expression_follows inner hx henv hC temps s
  | .arith l operator left right, p, p', c, h, henv, hC, temps, s => by
    obtain ⟨a, p1, b, p2, o, ha, hb, hsa, hsb, rfl, ho⟩ := expression_arith_ok h
    have c1 := expression_continues ha
    have c2 := expression_continues hb
    have hC2 := (arithmetic_continues ho).code.trans hC
    obtain ⟨rfl, hnext, hsize, hq⟩ := arithmetic_quad ho hC
    rw [Expr.denote]
    refine (expression_follows left ha henv (c2.code.trans hC2) temps s).bind ?_
    rintro d1 s1 _ ⟨temps1, rfl, agree1, den1, -⟩
    rw [settle_late_bind]
    refine (expression_follows right hb (c1.env.trans henv) hC2 temps1 s1).bind ?_
    rintro d2 s2 _ ⟨temps2, rfl, agree2, den2, -⟩
    -- the left operand is read here, and its temporaries have been left alone
    refine follows_arith hq (den1.mono agree2 c2.size_le) den2 fun w => ?_
    refine ⟨_, .refl _, _, by rw [hnext], ?_, .temp_update (by omega) w, rfl⟩
    exact (agree1.trans agree2 c1.size_le).update (c1.trans c2).size_le w
  | .sign l .minus operand, p, p', c, h, henv, hC, temps, s => by
    obtain ⟨x, p1, hx, hs, ⟨hsign, -⟩ | ⟨-, o, rfl, ho⟩⟩ := expression_sign_ok h
    · cases hsign
    have c1 := expression_continues hx
    obtain ⟨rfl, -, hsize, -⟩ := arithmetic_quad ho hC
    rw [Expr.denote]
    refine (expression_follows operand hx henv ((arithmetic_continues ho).code.trans hC)
      temps s).bind ?_
    rintro d s1 _ ⟨temps1, rfl, agree1, den1, fits1⟩
    obtain ⟨w, hw⟩ := fits1.read? (Computed.extents_of_isScalar hs) s1
    rw [Eval.bind_of_ok (Eval.read_of_some hw)]
    have hval := (value?_idle p1.code.next s1 den1).trans hw
    refine ⟨_, arithmetic_reaches ho hC hval rfl rfl, _, rfl, agree1.update c1.size_le _, ?_, rfl⟩
    rw [Int32.mul_neg, Int32.mul_one]
    exact .temp_update (by omega) _
  | .sign l .plus operand, p, p', c, h, henv, hC, temps, s => by
    obtain ⟨x, p1, hx, hs, ⟨-, rfl, rfl⟩ | ⟨hsign, -⟩⟩ := expression_sign_ok h
    · rw [Expr.denote]
      exact expression_follows operand hx henv hC temps s
    · cases hsign
  | .missing n, p, p', c, h, _, _, _, _ => by cases h
  | .compare .., p, p', c, h, _, _, _, _ => by cases h
  | .logic .., p, p', c, h, _, _, _, _ => by cases h
  | .not .., p, p', c, h, _, _, _, _ => by cases h

/-- The number of a row is built up from the values of the subscripts. The offset counts
what stands for the first of these from a base. -/
theorem subscripts_follows (l : Location) : ∀ (es : List Expr) (base : Word) {p p' : Progress}
    {ns : List Nat} {offset o : Operand} {d : Denoted},
    rowOffset l ns offset es p = .ok o p' → p.env = ctx.env → p'.code.Continues code →
      ∀ (temps : Nat → Word) (s : Store),
        CountsFrom ctx code p.code.temps.size temps base d offset →
        (idle p.code.next temps s).Follows ctx code
          (ArrivesAtRow ctx code p p' temps base ns es.length o)
          (Expr.subscripts ctx .late d es s)
  | [], base, p, p', ns, offset, o, d, h, henv, hC, temps, s, hoff => by
    rw [rowOffset] at h
    cases h
    obtain ⟨i, hi, hval⟩ := hoff temps (.refl _ _) p.code.next s
    rw [Expr.subscripts, Eval.bind_of_ok (Eval.read_of_some hi)]
    exact ⟨_, .refl _, temps, i, [], rfl, rfl, rfl, .refl _ _, hval⟩
  | e :: es, base, p, p', ns, offset, o, d, h, henv, hC, temps, s, hoff => by
    obtain ⟨x, p1, scaled, p2, sum, p3, hx, hs, -, hscaled, hsum, hrest⟩ := rowOffset_cons_ok h
    have c1 := expression_continues hx
    have c2 := arithmetic_continues hscaled
    have c3 := arithmetic_continues hsum
    have hC3 := (rowOffset_continues hrest).code.trans hC
    have hC2 := c3.code.trans hC3
    rw [Expr.subscripts]
    refine (expression_follows e hx henv (c2.code.trans hC2) temps s).bind ?_
    rintro d1 s1 _ ⟨temps1, rfl, agree1, den1, fits1⟩
    -- the subscript before is read in the memory that this one has left
    obtain ⟨i, hi, hval⟩ := hoff temps1 agree1 p1.code.next s1
    obtain ⟨j, hj⟩ := fits1.read? (Computed.extents_of_isScalar hs) s1
    rw [Eval.bind_of_ok (Eval.read_of_some hi), Eval.bind_of_ok (Eval.read_of_some hj)]
    obtain ⟨temps3, reach3, agree3, hcounts, -⟩ := rowStep_reaches hscaled hsum hC3 hval den1 hj
    refine .after reach3 ?_
    refine (subscripts_follows l es _ hrest ((c1.trans (c2.trans c3)).env.trans henv) hC temps3 s1
      hcounts).bind ?_
    rintro _ s2 _ ⟨temps4, j', is, rfl, hlen, rfl, agree4, hval4⟩
    refine ⟨_, .refl _, temps4, i, j' :: is, rfl, congrArg (· + 1) hlen, rfl, ?_, hval4⟩
    exact agree1.trans (agree3.trans agree4 (c2.trans c3).size_le) c1.size_le

/-- The arguments of a call are evaluated in order and read afterwards. -/
theorem arguments_follows (f : FunctionDecl) : ∀ (qs : List Parameter) (es : List Expr)
    {p p' : Progress} {as : List Argument},
    argumentsOf f qs es p = .ok as p' → p.env = ctx.env → p'.code.Continues code →
      ∀ (temps : Nat → Word) (s : Store),
        (idle p.code.next temps s).Follows ctx code
          (ArrivesWithArguments ctx code p p' temps as)
          (Expr.denoteArguments ctx .late qs es s)
  | q :: qs, e :: es, p, p', as, h, henv, hC, temps, s => by
    obtain ⟨x, p1, rest, hx, -, -, -, hrest, rfl⟩ := argumentsOf_cons_ok h
    have c1 := expression_continues hx
    have c2 := argumentsOf_continues hrest
    rw [Expr.denoteArguments]
    refine (expression_follows e hx henv (c2.code.trans hC) temps s).bind ?_
    rintro d s1 _ ⟨temps1, rfl, agree1, den1, -⟩
    have hlate : settleArgument .late q.byReference d = pure d := ite_id _
    rw [hlate, pure_bind]
    refine (arguments_follows f qs es hrest (c1.env.trans henv) hC temps1 s1).bind ?_
    rintro ds s2 _ ⟨temps2, rfl, agree2, hds⟩
    exact ⟨_, .refl _, temps2, rfl, agree1.trans agree2 c1.size_le,
      .cons ⟨rfl, den1.mono agree2 c2.size_le⟩ hds⟩
  | [], es, p, p', as, h, henv, hC, temps, s => by
    obtain ⟨rfl, rfl⟩ := argumentsOf_nil_ok (.inl rfl) h
    rw [Expr.denoteArguments]
    · exact ⟨_, .refl _, temps, rfl, .refl _ _, .nil⟩
    · nofun
  | q :: qs, [], p, p', as, h, henv, hC, temps, s => by
    obtain ⟨rfl, rfl⟩ := argumentsOf_nil_ok (.inr rfl) h
    rw [Expr.denoteArguments]
    · exact ⟨_, .refl _, temps, rfl, .refl _ _, .nil⟩
    · nofun

end

/-! ### Conditions -/

/-- Jumps that a part of the code has left pending may be led to a target. -/
theorem continues_patch {p p1 : Progress} {lo : Nat} {l l' : List Nat} (h : p.Emits lo p1 l)
    (hl : l' ⊆ l) (t : Nat) : p1.Continues (p1.withCode (p1.code.patch l' t)) :=
  ⟨h.grows.continues_patch hl t, rfl⟩

/-- They lead there in the completed code, too. -/
theorem leads_patch {p p1 : Progress} {lo t : Nat} {l l' : List Nat} (h : p.Emits lo p1 l)
    (hl : l' ⊆ l) (hC : (p1.code.patch l' t).Continues code) : code.Leads l' t :=
  hC.leads (h.grows.leads_patch hl t)

theorem condition_continues {exits : Exits} (h : condition e p = .ok exits p') : p.Continues p' :=
  .of_emits (condition_emits e (Nat.zero_le _) h)

/-- The machine has left a condition through an exit. -/
def ArrivesAt (t u : Nat) (b : Bool) (s : Store) (m : Machine) : Prop :=
  ∃ temps, m = .idle (if b then t else u) temps s

/-- A condition that is decided leads to the exit for it. -/
theorem ArrivesAt.reaches {first t u : Nat} {b : Bool} {s' : Store}
    (h : ∀ temps s, (idle first temps s).Follows ctx code (ArrivesAt t u)
      (e.holds ctx .late s)) (test : e.holds ctx .late s = .ok (b, s')) (temps : Nat → Word) :
    ∃ temps', (idle first temps s).Reaches ctx code
      (.idle (if b then t else u) temps' s') := by
  have harrive := h temps s
  rw [test] at harrive
  obtain ⟨_, hreach, temps', rfl⟩ := harrive
  exact ⟨temps', hreach⟩

/-- The code of a condition follows its meaning: it leads to one target if the
condition holds and to another if it does not. -/
theorem condition_follows {exits : Exits} {t u : Nat} (h : condition e p = .ok exits p')
    (henv : p.env = ctx.env) (hC : p'.code.Continues code) (ht : code.Leads exits.whenTrue t)
    (hu : code.Leads exits.whenFalse u) (temps : Nat → Word) (s : Store) :
    (idle p.code.next temps s).Follows ctx code (ArrivesAt t u) (e.holds ctx .late s) := by
  induction h using condition_induction generalizing t u temps s with
  | group ih =>
    rw [Expr.holds]
    exact ih henv hC ht hu temps s
  | not ih =>
    rw [Expr.holds]
    refine (ih henv hC hu ht temps s).bind ?_
    rintro b s1 _ ⟨temps1, rfl⟩
    exact ⟨_, .refl _, temps1, by cases b <;> rfl⟩
  | @logic _ k left _ _ a p1 _ _ ha hb _ ihleft ihright =>
    have e1 := condition_emits left (Nat.zero_le _) ha
    have hl := a.when_subset !k.settles
    have hC1 := (condition_continues hb).code.trans hC
    have hC0 := (continues_patch e1 hl p1.code.next).code.trans hC1
    -- the exits that settle nothing have been led to the right side
    have hnext := leads_patch e1 hl hC1
    have hright := fun {t u} (ht : code.Leads _ t) (hu : code.Leads _ u) =>
      ihright (t := t) (u := u) (e1.env_eq.trans henv) hC ht hu
    rw [withCode_code, Code.next_patch] at hright
    cases k with
    | or =>
      rw [Expr.holds]
      refine (ihleft henv hC0 ht.left hnext temps s).bind ?_
      rintro v s1 _ ⟨temps1, rfl⟩
      cases v with
      | true => exact ⟨_, .refl _, temps1, rfl⟩
      | false => exact hright ht.right hu temps1 s1
    | and =>
      rw [Expr.holds]
      refine (ihleft henv hC0 hnext hu.left temps s).bind ?_
      rintro v s1 _ ⟨temps1, rfl⟩
      cases v with
      | true => exact hright ht hu.right temps1 s1
      | false => exact ⟨_, .refl _, temps1, rfl⟩
  | @compare _ relation left right _ _ _ h =>
    obtain ⟨a, p1, b, p2, ha, hb, hcmp⟩ := condition_compare_ok h
    obtain ⟨-, -, -, rfl, rfl⟩ := comparison_ok hcmp
    have c1 := expression_continues ha
    have c2 := expression_continues hb
    have hC3 := (Code.Continues.push _ jumpQuad).trans hC
    have hC2 := (Code.Continues.push p2.code _).trans hC3
    -- both quads were pending and have been led to the targets of the exits
    have hq : code.quads[p2.code.next]? =
        some ((compareQuad relation a.operand b.operand).ledTo t) :=
      hC3.of_pending Code.getElem?_push_next rfl ht mem_cons_self
    have hj : code.quads[p2.code.next + 1]? = some (jumpQuad.ledTo u) := by
      refine hC.of_pending ?_ rfl hu mem_cons_self
      rw [← Code.next_push]
      exact Code.getElem?_push_next
    rw [Expr.holds]
    refine (expression_follows left ha henv (c2.code.trans hC2) temps s).bind ?_
    rintro d1 s1 _ ⟨temps1, rfl, agree1, den1, -⟩
    rw [settle_late_bind]
    refine (expression_follows right hb (c1.env.trans henv) hC2 temps1 s1).bind ?_
    rintro d2 s2 _ ⟨temps2, rfl, agree2, den2, -⟩
    exact follows_compare hq hj (den1.mono agree2 c2.size_le) den2 fun w =>
      ⟨_, .refl _, temps2, rfl⟩

end Emit

end BlockLang
