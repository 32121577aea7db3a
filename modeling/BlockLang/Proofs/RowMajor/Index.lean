import BlockLang.Proofs.RowMajor.Number

/-!
# The code of index expressions

The code of an index expression takes the array first, then the subscripts from left to
right. With every further subscript the number of the row is multiplied by an extent, and the
subscript is added. A last quad adds the bytes in front of the cell to the address of the
array.
-/

namespace BlockLang

open Int32 List List.Forall₂ Machine

variable {c : Computed} {d : Denoted} {base first : Expr} {more : List Expr} {l : Location}
  {p p' : Progress} {s : Store} {i : Word}

/-- The code of the subscripts of an array, and of the address that they select. -/
def Emit.indexInto (l : Location) (array : Computed) (first : Expr) (more : List Expr) :
    Emit Computed := do
  checkSubscripts l array (more.length + 1)
  let offset ← subscript first.location (← expression first)
  let offset ← rowOffset l (array.shape.extents.drop 1) offset more
  let extents := array.shape.extents.drop (more.length + 1)
  element array extents (← rowStart l offset extents)

/-- The values of subscripts, each read when it is needed. -/
def Expr.indices (ctx : Context) (first : Expr) (more : List Expr) : Eval (List Word) := do
  Expr.subscripts ctx .late (← first.denote ctx .late) more

/-- Temporaries hold words, as the results of operations in a part of the code. -/
def Code.Results (code : Code) (first last bound : Nat) (temps : Nat → Word) :
    List Nat → List Word → Prop :=
  List.Forall₂ fun t w => t < bound ∧ temps t = w ∧ ∃ q operator a b, first ≤ q ∧ q < last ∧
    code.quads[q]? = some (Emit.arithQuad operator a b t)

/-- From quad `first` on the machine comes to quad `last`, which adds the bytes in front of
the cell or row that the subscripts select to the address of an array. The operations in
between have computed the number of the cell step by step. -/
structure Machine.Addresses (ctx : Context) (code : Code) (first last : Nat) (array : Operand)
    (n : Nat) (shape : Shape) (a i : Word) (is : List Word) (s' : Store) (m : Machine)
    (offset : Operand) (temps : Nat → Word) (ts : List Nat) : Prop where
  reaches : m.Reaches ctx code (.idle last temps s')
  results : code.Results first last n temps ts (rowSteps ofNat i shape.extents.tail is)
  quad : code.quads[last]? = some (Emit.elementQuad array offset n)
  offset : (idle last temps s').value? ctx code offset =
    some (rowMajor ofNat shape.extents (i :: is))
  address : (idle last temps s').step? ctx code = some (.idle (last + 1)
    (Function.update temps n
      (a + .ofNat shape.ty.size * rowMajor ofNat shape.extents (i :: is))) s')

namespace Code.Results

variable {code : Code} {first first' last last' bound bound' t : Nat} {temps temps' : Nat → Word}
  {ts : List Nat} {ws : List Word} {w : Word}

theorem mono (h : code.Results first last bound temps ts ws)
    (hfirst : first' ≤ first) (hlast : last ≤ last') (hbound : bound ≤ bound')
    (hagree : AgreeBelow bound temps temps') :
    code.Results first' last' bound' temps' ts ws := by
  refine imp ?_ h
  rintro t w ⟨ht, hw, q, operator, a, b, hq, hq', hquad⟩
  exact ⟨ht.trans_le hbound, (hagree t ht).trans hw, q, operator, a, b, hfirst.trans hq,
    hq'.trans_le hlast, hquad⟩

/-- The result of an operation in front. -/
theorem cons {q : Nat} {operator : Arith} {a b : Operand}
    (hquad : code.quads[q]? = some (Emit.arithQuad operator a b t)) (hfirst : first ≤ q)
    (hlast : q < last) (ht : t < bound) (hw : temps t = w)
    (h : code.Results first last bound temps ts ws) :
    code.Results first last bound temps (t :: ts) (w :: ws) :=
  List.Forall₂.cons ⟨ht, hw, q, operator, a, b, hfirst, hlast, hquad⟩ h

end Code.Results

namespace Emit

variable {ctx : Context} {code : Code}

theorem expression_index_eq (l : Location) (base first : Expr) (more : List Expr) :
    expression (.index l base first more) =
      expression base >>= fun array => indexInto l array first more := by
  rw [expression]
  rfl

/-! ### Subscripts -/

private theorem Denoted.eq_of_read? (h : d.read? s = some i) : ∀ w, d = .value w → i = w := by
  rintro w rfl
  exact (Option.some.inj h).symm

/-- The machine has the number of the first cell of a row, and the steps to it are kept in
temporaries. The first subscript is what `d` stands for. -/
def ArrivesAtCell (ctx : Context) (code : Code) (p p' : Progress) (temps : Nat → Word)
    (base : Word) (d : Denoted) (ns : List Nat) (count : Nat) (o : Operand) (js : List Word)
    (s : Store) (m : Machine) : Prop :=
  ∃ temps' i is ts, js = i :: is ∧ is.length = count ∧ (∀ w, d = .value w → i = w) ∧
    m = .idle p'.code.next temps' s ∧
    AgreeBelow p.code.temps.size temps temps' ∧
    m.value? ctx code o = some (rowNumber (base + i) ns is * .ofNat (ns.drop count).prod) ∧
    code.Results p.code.next p'.code.next p'.code.temps.size temps' ts
      (rowSteps ofNat (base + i) ns is)

/-- Without further subscripts the number of a row is multiplied by its size. -/
theorem rowStart_arrives {ns : List Nat} {offset o : Operand} {base : Word} {temps : Nat → Word}
    (h : rowStart l offset ns p = .ok o p') (hC : p'.code.Continues code)
    (hd : ∀ w, d = .value w → i = w)
    (hval : (idle p.code.next temps s).value? ctx code offset = some (base + i)) :
    ∃ m, (idle p.code.next temps s).Reaches ctx code m ∧
      ArrivesAtCell ctx code p p' temps base d ns 0 o [i] s m := by
  obtain ⟨temps', reach, agree, hstart⟩ := rowStart_reaches hC hval h
  refine ⟨_, reach, temps', i, [], ?_⟩
  cases ns with
  | nil =>
    cases h
    exact ⟨[], rfl, rfl, hd, rfl, agree, hstart, nil⟩
  | cons n ns =>
    obtain ⟨hnil, -⟩ | ⟨m, hm, -, hmul⟩ := rowStart_ok h
    · cases hnil
    · obtain ⟨rfl, hnext, hsize, hquad⟩ := arithmetic_quad hmul hC
      exact ⟨[p.code.temps.size], rfl, rfl, hd, rfl, agree, hstart,
        .cons hquad (Nat.le_refl _) (by omega) (by omega) (Option.some.inj hstart) nil⟩

/-- The number of the first cell that subscripts select is computed step by step from their
values. -/
theorem subscripts_arrives (l : Location) (es : List Expr) :
    ∀ (base : Word) {p p1 p' : Progress} {ns : List Nat} {offset o start : Operand} {d : Denoted},
    rowOffset l ns offset es p = .ok o p1 →
      rowStart l o (ns.drop es.length) p1 = .ok start p' → p.env = ctx.env →
      p'.code.Continues code → ∀ (temps : Nat → Word) (s : Store),
        CountsFrom ctx code p.code.temps.size temps base d offset →
        (idle p.code.next temps s).Follows ctx code
          (ArrivesAtCell ctx code p p' temps base d ns es.length start)
          (Expr.subscripts ctx .late d es s) := by
  induction es with
  | nil =>
    intro base p p1 p' ns offset o start d h hstart henv hC temps s hoff
    rw [rowOffset] at h
    cases h
    obtain ⟨i, hi, hval⟩ := hoff temps (.refl _ _) p.code.next s
    rw [Expr.subscripts, Eval.bind_of_ok (Eval.read_of_some hi)]
    exact rowStart_arrives hstart hC (Denoted.eq_of_read? hi) hval
  | cons e es ih =>
    intro base p p1 p' ns offset o start d h hstart henv hC temps s hoff
    obtain ⟨x, p2, scaled, p3, sum, p4, hx, hs, -, hscaled, hsum, hrest⟩ := rowOffset_cons_ok h
    have c2 := expression_continues hx
    have c3 := arithmetic_continues hscaled
    have c4 := arithmetic_continues hsum
    have c' := (rowOffset_continues hrest).trans (rowStart_continues hstart)
    have hC4 := c'.code.trans hC
    have hC3 := c4.code.trans hC4
    obtain ⟨rfl, hnext3, hsize3, hquad3⟩ := arithmetic_quad hscaled hC3
    obtain ⟨rfl, hnext4, hsize4, hquad4⟩ := arithmetic_quad hsum hC4
    rw [Expr.subscripts]
    refine (expression_follows e hx henv (c3.code.trans hC3) temps s).bind ?_
    rintro d1 s1 _ ⟨temps1, rfl, agree1, den1, fits1⟩
    -- the subscript before is read in the memory that this one has left
    obtain ⟨i, hi, hval⟩ := hoff temps1 agree1 p2.code.next s1
    obtain ⟨j, hj⟩ := fits1.read? (Computed.extents_of_isScalar hs) s1
    rw [Eval.bind_of_ok (Eval.read_of_some hi), Eval.bind_of_ok (Eval.read_of_some hj)]
    obtain ⟨temps4, reach4, agree4, hcounts, hscaled', hsum'⟩ :=
      rowStep_reaches hscaled hsum hC4 hval den1 hj
    refine .after reach4 ?_
    rw [length_cons, ← drop_tail] at hstart
    refine (ih _ hrest hstart ((c2.trans (c3.trans c4)).env.trans henv) hC temps4 s1
      hcounts).bind ?_
    rintro _ s2 _ ⟨temps', j', is, ts, rfl, hlen, hvalue, rfl, agree', hval', hresults⟩
    obtain rfl := hvalue j rfl
    have hle2 := c2.code.next_le
    have hle' := c'.code.next_le
    have hsize' := c'.size_le
    refine ⟨_, .refl _, temps', i, j' :: is, p2.code.temps.size :: p3.code.temps.size :: ts, rfl,
      congrArg (· + 1) hlen, Denoted.eq_of_read? hi, rfl, ?_, ?_, ?_⟩
    · exact agree1.trans (agree4.trans agree' (c3.trans c4).size_le) c2.size_le
    · rwa [length_cons, ← drop_tail]
    · refine .cons hquad3 hle2 (by omega) (by omega) ((agree' _ (by omega)).trans hscaled') ?_
      refine .cons hquad4 (by omega) (by omega) (by omega) ((agree' _ (by omega)).trans hsum') ?_
      exact hresults.mono (by omega) (Nat.le_refl _) (Nat.le_refl _) (.refl _ _)

/-! ### Index expressions -/

/-- What an index expression is computed to: the array, with as many extents left as there
are no subscripts for, at an address in a new temporary. The temporary is recorded with the
type of the cells and the number of these extents. -/
theorem index_recorded (h : expression (.index l base first more) p = .ok c p')
    (hC : p'.code.Continues code) : ∃ array p1 n, expression base p = .ok array p1 ∧
      more.length + 1 ≤ array.shape.extents.length ∧ p'.code.temps.size = n + 1 ∧
      c = ⟨⟨array.shape.ty, array.shape.extents.drop (more.length + 1)⟩, .cell n, true⟩ ∧
      code.temps[n]? = some .int ∧
      code.cell? n = some ⟨array.shape.ty, array.shape.extents.length - (more.length + 1)⟩ := by
  obtain ⟨array, p1, i, p2, offset, p3, start, p4, harray, -, hle, hi, -, hoff, hstart, hc⟩ :=
    expression_index_ok h
  obtain ⟨rfl, -, hsize, htemp, hcell, -⟩ := element_quad hc hC
  rw [length_drop] at hcell
  exact ⟨array, p1, p4.code.temps.size, harray, hle, hsize, rfl, htemp, hcell⟩

/-- The code of an index expression comes to the address of the cell or row that the values of
the subscripts select, whether they are in range or not. -/
theorem index_addresses {p1 : Progress} {array : Computed}
    (h : expression (.index l base first more) p = .ok c p')
    (hbase : expression base p = .ok array p1) (henv : p.env = ctx.env)
    (hC : p'.code.Continues code) {n : Nat} (hn : p'.code.temps.size = n + 1) {shape : Shape}
    {a : Word} {js : List Word} {s1 s2 : Store} (temps : Nat → Word)
    (hden : base.denote ctx .late s = .ok (.place shape a, s1))
    (hjs : Expr.indices ctx first more s1 = .ok (js, s2)) :
    (Denoted.place shape a).Fits array.shape ∧
      ∃ i is last offset temps' ts, js = i :: is ∧ is.length = more.length ∧
        p'.code.next = last + 1 ∧
        (idle p.code.next temps s).Addresses ctx code p.code.next last array.operand n shape
          a i is s2 offset temps' ts := by
  obtain ⟨array', p1', i, p2, offset, p3, start, p4, harray, -, hle, hi, hs, hoff, hstart, hc⟩ :=
    expression_index_ok h
  cases hbase.symm.trans harray
  have c1 := expression_continues harray
  have c2 := expression_continues hi
  have c3 := (rowOffset_continues hoff).trans (rowStart_continues hstart)
  have hC4 := (element_continues hc).code.trans hC
  have hC2 := c3.code.trans hC4
  -- the array is evaluated first
  have hfollows := expression_follows base harray henv (c2.code.trans hC2) temps s
  rw [hden] at hfollows
  obtain ⟨_, reach1, temps1, rfl, agree1, den1, hfits⟩ := hfollows
  have hrest : array.shape.extents.drop (more.length + 1) =
      (array.shape.extents.drop 1).drop more.length := by
    rw [drop_drop, Nat.add_comm]
  rw [hrest] at hstart
  -- then the subscripts, from the first one on
  have hindices : (idle p1.code.next temps1 s1).Follows ctx code (fun js s m => ∃ d,
      ArrivesAtCell ctx code p1 p4 temps1 0 d (array.shape.extents.drop 1) more.length start js s m)
      (Expr.indices ctx first more s1) := by
    refine (expression_follows first hi (c1.env.trans henv) hC2 temps1 s1).bind ?_
    rintro d2 s2 _ ⟨temps2, rfl, agree2, den2, fits2⟩
    refine (subscripts_arrives l more 0 hoff hstart (c2.env.trans (c1.env.trans henv)) hC4 temps2 s2
      (countsFrom_zero den2 fits2 hs)).mono ?_
    rintro js s3 m ⟨temps3, i, is, ts, hjs, hlen, hd, hm, agree3, hval, hresults⟩
    exact ⟨d2, temps3, i, is, ts, hjs, hlen, hd, hm, agree2.trans agree3 c2.size_le, hval,
      hresults.mono c2.code.next_le (Nat.le_refl _) (Nat.le_refl _) (.refl _ _)⟩
  rw [hjs] at hindices
  obtain ⟨_, reach2, -, temps2, i, is, ts, rfl, hlen, -, rfl, agree2, hval, hresults⟩ := hindices
  -- the number of the cell is the sum over the subscripts
  obtain ⟨hty, hlength, htail⟩ := hfits
  have hshape : array.shape.extents.drop 1 = shape.extents.tail := by
    rw [drop_one, htail]
  have hlong : is.length ≤ shape.extents.tail.length := by
    rw [length_tail]
    omega
  obtain ⟨k, ns, hextents⟩ : ∃ k ns, shape.extents = k :: ns :=
    exists_cons_of_length_pos (by omega)
  rw [hshape, Int32.zero_add, ← hlen] at hval
  rw [hshape, Int32.zero_add] at hresults
  have hsum : i * .ofNat ns.prod + rowMajor ofNat ns is =
      rowMajor ofNat shape.extents (i :: is) := by
    rw [hextents, rowMajor]
  rw [rowNumber_mul_prod_eq _ _ _ hlong, hextents, tail_cons, hsum] at hval
  obtain ⟨-, hnext, hsize, -, -, hquad⟩ := element_quad hc hC
  obtain rfl : n = p4.code.temps.size := by omega
  have haddress : (idle p4.code.next temps2 s2).address? ctx array.operand = some a :=
    (den1.mono agree2 (c2.trans c3).size_le).address?
  have hstep := element_step hC hval hc haddress
  rw [← hty, hnext] at hstep
  refine ⟨⟨hty, hlength, htail⟩, i, is, p4.code.next, start, temps2, ts, rfl, hlen, hnext, ?_⟩
  exact ⟨reach1.trans reach2, hresults.mono c1.code.next_le (Nat.le_refl _) (Nat.le_refl _)
    (.refl _ _), hquad, hval, hstep⟩

end Emit

end BlockLang
