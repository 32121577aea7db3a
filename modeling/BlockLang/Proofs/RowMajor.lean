import BlockLang.Proofs.Program.Extent
import BlockLang.Proofs.RowMajor.Index
import BlockLang.Proofs.StaticScoping

/-!
# Row-major addressing

The code of an index expression computes the number of a cell in words that wrap around. For a
variable of a text that compiles and subscripts in range nothing wraps around: the cell or row lies
in the bytes of the variable, and different cells have no byte in common.
-/

namespace BlockLang

open Emit List

/-! ### Cells of a variable -/

namespace Variable

/-- The bytes of a cell or row that subscripts select, counted from the start of the
variable. -/
def bytesOf (v : Variable) (is : List Word) : Set Int :=
  Set.Ico (v.ty.size * cellIndex v.extents is)
    (v.ty.size * cellIndex v.extents is + v.ty.size * (v.extents.drop is.length).prod)

/-- No step from the first subscript to the offset of a cell or row wraps around, and the cell
or row lies in a variable of `size` bytes. -/
structure Contains (v : Variable) (size : Nat) (i : Word) (is : List Word) : Prop where
  steps : List.Forall₂ (Fits v.ty.size) (i :: rowSteps Int32.ofNat i v.extents.tail is)
    (i.toInt :: rowSteps Nat.cast i.toInt v.extents.tail (is.map Int32.toInt))
  number : Fits v.ty.size (rowMajor Int32.ofNat v.extents (i :: is))
    (cellIndex v.extents (i :: is))
  offset : (Int32.ofNat v.ty.size * rowMajor Int32.ofNat v.extents (i :: is)).toInt =
    v.ty.size * cellIndex v.extents (i :: is)
  within : v.bytesOf (i :: is) ⊆ Set.Ico 0 (size : Int)

variable {v : Variable}

/-- What subscripts in range select lies in the variable. -/
theorem bytesOf_subset {is : List Word} (h : InRange v.extents is) :
    v.bytesOf is ⊆ Set.Ico 0 (v.bytes : Int) := by
  obtain ⟨hnonneg, hle⟩ := cellIndex_add_prod_le h
  have hend : (v.ty.size : Int) * (cellIndex v.extents is + (v.extents.drop is.length).prod) ≤
      v.ty.size * v.extents.prod := mul_le_mul_of_nonneg_left hle (by positivity)
  refine Set.Ico_subset_Ico (by positivity) ?_
  rw [bytes, Nat.cast_mul]
  linarith

/-- The number of a cell or row in range takes no more bytes than the variable has. -/
theorem fits_rowMajor (hsize : 1 ≤ v.ty.size) (hbytes : v.bytes < offsetLimit)
    {is : List Word} (h : InRange v.extents is) :
    Fits v.ty.size (rowMajor Int32.ofNat v.extents is) (cellIndex v.extents is) := by
  obtain ⟨hnonneg, hle⟩ := cellIndex_add_prod_le h
  have hscaled : cellIndex v.extents is * v.ty.size ≤ v.bytes := by
    rw [bytes, Nat.cast_mul, mul_comm]
    exact mul_le_mul_of_nonneg_left (by omega) (by positivity)
  have hnumber : cellIndex v.extents is ≤ cellIndex v.extents is * v.ty.size :=
    le_mul_of_one_le_right hnonneg (by exact_mod_cast hsize)
  refine ⟨?_, hnonneg, by omega⟩
  rw [rowMajor_eq_ofInt]
  unfold offsetLimit at hbytes
  exact Int32.toInt_ofInt_of_le (by omega) (by omega)

namespace IsProper

/-- Subscripts in range of a variable that has a size select a cell or row inside it. -/
theorem contains (h : v.IsProper) (hbytes : v.bytes < offsetLimit) {i : Word} {is : List Word}
    (hrange : InRange v.extents (i :: is)) : v.Contains v.bytes i is := by
  have hsize := Ty.one_le_size h.ty
  have hnumber := fits_rowMajor hsize hbytes hrange
  have hcast : (Int32.ofNat v.ty.size).toInt = v.ty.size := by cases v.ty <;> decide
  have hcomm : (v.ty.size : Int) * cellIndex v.extents (i :: is) =
      cellIndex v.extents (i :: is) * v.ty.size := mul_comm _ _
  refine ⟨?_, hnumber, ?_, bytesOf_subset hrange⟩
  · obtain ⟨name, location, ty, extents⟩ := v
    cases extents with
    | nil => exact hrange.elim
    | cons n ns =>
      exact steps_exact hsize (fun m hm => h.extents m (mem_cons_of_mem _ hm)) hbytes hrange
  · obtain ⟨hvalue, hnonneg, hlt⟩ := hnumber
    rw [toInt_mul_of_lt, hcast, hvalue] <;> rw [hcast, hvalue, hcomm]
    · positivity
    · exact hlt

/-- Different cells have no byte in common. -/
theorem disjoint_bytesOf (h : v.IsProper) {is js : List Word} (hi : InRange v.extents is)
    (hj : InRange v.extents js) (hlength : is.length = v.extents.length)
    (hlength' : js.length = v.extents.length) (hne : is ≠ js) :
    Disjoint (v.bytesOf is) (v.bytesOf js) := by
  have hsize : (1 : Int) ≤ v.ty.size := by exact_mod_cast Ty.one_le_size h.ty
  have hnumbers : cellIndex v.extents is ≠ cellIndex v.extents js :=
    fun heq => hne (cellIndex_injective hi hj hlength hlength' heq)
  unfold bytesOf
  rw [hlength, hlength', drop_length, prod_nil, Nat.cast_one, mul_one]
  rw [Set.Ico_disjoint_Ico]
  -- the cell with the smaller number ends where that with the larger one starts, or before
  rcases lt_or_gt_of_ne hnumbers with hlt | hlt
  · have hend : (v.ty.size : Int) * (cellIndex v.extents is + 1) ≤
        v.ty.size * cellIndex v.extents js := mul_le_mul_of_nonneg_left (by omega) (by omega)
    rw [mul_add, mul_one] at hend
    omega
  · have hend : (v.ty.size : Int) * (cellIndex v.extents js + 1) ≤
        v.ty.size * cellIndex v.extents is := mul_le_mul_of_nonneg_left (by omega) (by omega)
    rw [mul_add, mul_one] at hend
    omega

end IsProper

end Variable

/-! ### Index expressions of a program -/

/-- A variable of a frame has a size. -/
theorem Frame.size?_isSome {locals : List Variable} {temps : List (Nat × Ty)} {f : Frame}
    (h : layout? locals temps = some f) : ∀ v ∈ locals, v.size?.isSome := by
  obtain ⟨sized, hsized, -⟩ := layout?_eq_some_iff.mp h
  intro v hv
  obtain ⟨item, -, hsize, -⟩ := exists_of_forall₂ (Forall₂.flip (sized_of_mapM hsized)) hv
  rw [hsize]
  rfl

/-- Where the code of an index expression stands, and what it is computed to. The leading
extent of the array plays no part. -/
structure CompiledFunction.Indexes (r : CompiledFunction) (l : Location) (base first : Expr)
    (more : List Expr) (p p1 p' : Progress) (array : Computed) (n : Nat) : Prop where
  env : p.env = r.opened.env
  base : expression base p = .ok array p1
  length_le : more.length + 1 ≤ array.shape.extents.length
  index : indexInto l array first more p1 = .ok
    ⟨⟨array.shape.ty, array.shape.extents.drop (more.length + 1)⟩, .cell n, true⟩ p'
  leading : ∀ k ks, array.shape.extents = k :: ks → ∀ k',
    indexInto l ⟨⟨array.shape.ty, k' :: ks⟩, array.operand, array.assignable⟩ first more =
      indexInto l array first more
  code : p'.code.Continues r.closed.code
  /-- The temporary of the address is recorded with the type of the cells and the number of
  extents left. -/
  temp : r.closed.code.temps[n]? = some .int
  cell : r.closed.code.cell? n =
    some ⟨array.shape.ty, array.shape.extents.length - (more.length + 1)⟩

namespace Compiles

variable {tree : Decl} {p : Progress} {rs : List CompiledFunction} {r : CompiledFunction}
  {l : Location} {base first : Expr} {more : List Expr}

/-- The index expressions of a body have been translated. -/
theorem exists_indexes (h : Compiles tree p rs) (hr : r ∈ rs)
    (he : Expr.index l base first more ∈ Stmt.valuesAll r.body) :
    ∃ p p1 p' array n, r.Indexes l base first more p p1 p' array n ∧
      expression (.index l base first more) p = .ok
        ⟨⟨array.shape.ty, array.shape.extents.drop (more.length + 1)⟩, .cell n, true⟩ p' ∧
      p'.code.temps.size = n + 1 := by
  obtain ⟨p, c, p', henv, hrun, hcode⟩ := (h.types hr).visited _ he
  obtain ⟨array, p1, n, hbase, hle, hn, rfl, htemp, hcell⟩ := index_recorded hrun hcode
  have hindex := hrun
  rw [expression_index_eq, bind_of_ok hbase] at hindex
  refine ⟨p, p1, p', array, n, ⟨henv, hbase, hle, hindex, ?_, hcode, htemp, hcell⟩, hrun, hn⟩
  -- the leading extent plays no part
  intro k ks hks k'
  obtain ⟨⟨ty, extents⟩, o, assignable⟩ := array
  cases hks
  rfl

end Compiles

/-- In a text that compiles, the code of an index expression computes the number of a cell or
row as the sum over the subscripts, in words that wrap around, and adds its bytes to the
address of the array. If the array is a variable and the subscripts are in range, then nothing
wraps around, the cell or row lies in the variable, and different cells do not overlap. -/
theorem row_major_addressing {source : String} {c : Compilation} (h : (compile source).1 = .ok c) :
    ∃ lexemes tree p rs, Token.scan source = .ok lexemes ∧ (Decl.read lexemes).1 = .ok tree ∧
      Compiles tree p rs ∧ c = p.compilation tree ∧
      ∀ r ∈ rs, ∀ l base first more, Expr.index l base first more ∈ Stmt.valuesAll r.body →
        ∃ p p₁ p' array n, r.Indexes l base first more p p₁ p' array n ∧
          (∀ ctx : Context, ctx.env = r.opened.env → ∀ temps s s₁ s₂ shape a js,
            base.denote ctx .late s = .ok (.place shape a, s₁) →
            Expr.indices ctx first more s₁ = .ok (js, s₂) →
              (Denoted.place shape a).Fits array.shape ∧
              ∃ i is last offset temps' ts, js = i :: is ∧ is.length = more.length ∧
                p'.code.next = last + 1 ∧
                (Machine.idle p.code.next temps s).Addresses ctx r.closed.code p.code.next last
                  array.operand n shape a i is s₂ offset temps' ts) ∧
          ∀ l' x v scope, base = .name l' x → r.opened.env.find? x = some ⟨.var v, scope⟩ →
            array.shape = ⟨v.ty, v.extents⟩ ∧ ∃ size, v.size? = some size ∧
              (∀ i is, InRange v.extents (i :: is) → v.Contains size i is) ∧
              ∀ is js, InRange v.extents is → InRange v.extents js →
                is.length = v.extents.length → js.length = v.extents.length → is ≠ js →
                  Disjoint (v.bytesOf is) (v.bytesOf js) := by
  obtain ⟨lexemes, tree, p, rs, hscan, hread, hcompiles, hc⟩ := compiles_of_compile h
  have htext := Decl.inText_of_read hscan hread
  have htyped := Decl.isTyped_of_read hread
  have hsized := Decl.isSized_of_read hread
  refine ⟨lexemes, tree, p, rs, hscan, hread, hcompiles, hc, ?_⟩
  intro r hr l base first more he
  obtain ⟨p, p₁, p', array, n, hindexes, hrun, hn⟩ := hcompiles.exists_indexes hr he
  refine ⟨p, p₁, p', array, n, hindexes, ?_, ?_⟩
  · intro ctx henv temps s s₁ s₂ shape a js hden hjs
    exact Emit.index_addresses hrun hindexes.base (hindexes.env.trans henv.symm) hindexes.code hn
      temps hden hjs
  · rintro l' x v scope rfl hx
    have hproper := hcompiles.isProper_of_find? htext htyped hsized hr hx
    -- the declaration of the variable was accepted, so it has a size
    have hfits := (hcompiles.settled r hr).env.fits scope
    obtain ⟨f, hf⟩ := Option.isSome_iff_exists.mp hfits
    have hsome := Frame.size?_isSome hf v (Environment.mem_locals_of_find? hx)
    rw [Variable.size?_eq hproper] at hsome ⊢
    have hbytes : v.bytes < offsetLimit := by
      by_contra hle
      rw [if_neg hle] at hsome
      cases hsome
    refine ⟨?_, v.bytes, if_pos hbytes, fun i is => hproper.contains hbytes, ?_⟩
    · have hbase := hindexes.base
      rw [Emit.expression] at hbase
      obtain ⟨-, b, hb, hcases⟩ := Emit.named_ok hbase
      rw [hindexes.env, hx] at hb
      cases hb
      obtain ⟨w, hw, rfl⟩ | ⟨q, hq, -⟩ := hcases
      · cases hw
        rfl
      · cases hq
    · intro is js hi hj hlength hlength' hne
      exact hproper.disjoint_bytesOf hi hj hlength hlength' hne

/-- A program that writes to a cell of an array with three extents. -/
def writeCell : String :=
  "function main(): nothing;
var a: int[2][3][4];
begin a[1][2][3] := 7; end"

def isWrittenCell : Expr → Bool
  | .index _ (.name _ "a") (.int _ 1) [.int _ 2, .int _ 3] => true
  | _ => false

def isWrittenArray : Decl → Bool
  | .vars _ .int [2, 3, 4] => true
  | _ => false

theorem exists_of_isWrittenCell {e : Expr} (h : isWrittenCell e) : ∃ l l0 l1 l2 l3,
    e = .index l (.name l0 "a") (.int l1 1) [.int l2 2, .int l3 3] := by
  unfold isWrittenCell at h
  split at h
  · exact ⟨_, _, _, _, _, rfl⟩
  · cases h

theorem eq_of_isWrittenArray {names : List DeclaredName} {ty : Ty} {extents : List Nat}
    (h : isWrittenArray (.vars names ty extents)) : ty = .int ∧ extents = [2, 3, 4] := by
  unfold isWrittenArray at h
  split at h
  · next heq =>
    cases heq
    exact ⟨rfl, rfl⟩
  · cases h

theorem row_major_addressing_writeCell : ∃ c, (compile writeCell).1 = .ok c ∧
    ∃ tree p rs, Compiles tree p rs ∧ c = p.compilation tree ∧ ∃ r ∈ rs,
      ∃ l base first more p p₁ p' array n, Expr.index l base first more ∈ Stmt.valuesAll r.body ∧
        r.Indexes l base first more p p₁ p' array n ∧
        (∃ ctx last offset temps ts, (Machine.idle p.code.next (fun _ => 0) (fun _ => 0)).Addresses
          ctx r.closed.code p.code.next last array.operand n ⟨.int, [2, 3, 4]⟩ 0 1 [2, 3]
          (fun _ => 0) offset temps ts) ∧
        ∃ v : Variable, array.shape = ⟨v.ty, v.extents⟩ ∧ v.extents = [2, 3, 4] ∧
          v.size? = some 96 ∧ v.Contains 96 1 [2, 3] ∧
          Disjoint (v.bytesOf [1, 2, 3]) (v.bytesOf [1, 2, 2]) := by
  have hknown : (treeOf? writeCell).any (fun tree => (progress? tree).any fun _ =>
      (tree.definitions [] []).any fun d =>
        (Stmt.valuesAll d.body).any isWrittenCell ∧ "a" ∈ Stmt.namedAll d.body ∧
        binding? tree.name "a" d.levels = some (0, .var [0]) ∧
        (tree.subtree? [0]).any isWrittenArray) = true := by
    decide +kernel
  obtain ⟨c, hc⟩ := exists_compilation hknown
  obtain ⟨lexemes, tree, p, rs, hscan, hread, hcompiles, heq, haddressing⟩ :=
    row_major_addressing hc
  simp only [treeOf?_eq hscan hread, Option.any_some, Option.any_eq_true, any_eq_true,
    decide_eq_true_eq] at hknown
  obtain ⟨-, -, d, hd, ⟨e, he, hcell⟩, ha, hbinding, _, hfound, harray⟩ := hknown
  obtain ⟨r, hr, hbody, _, _, _, _, -, _, hat, hfind, -⟩ :=
    hcompiles.exists_variable (Decl.inText_of_read hscan hread) hd ha hbinding
  rw [hbody] at he
  cases hat.symm.trans hfound
  obtain ⟨rfl, rfl⟩ := eq_of_isWrittenArray harray
  obtain ⟨l, l₀, l₁, l₂, l₃, rfl⟩ := exists_of_isWrittenCell hcell
  obtain ⟨q, q₁, q', array, n, hindexes, hrun, hvariable⟩ := haddressing _ hr l _ _ _ he
  -- the array is put at the address zero
  let ctx : Context := ⟨r.opened.env, fun _ => 0, fun _ => 0, fun _ => 0, fun _ _ _ => none⟩
  have hplace : ctx.place? "a" = some (.place ⟨.int, [2, 3, 4]⟩ 0) := by
    simp [Context.place?, ctx, hfind]
  have hden : (Expr.name l₀ "a").denote ctx .late (fun _ => 0) =
      .ok (.place ⟨.int, [2, 3, 4]⟩ 0, fun _ => 0) := by
    rw [Expr.denote, hplace]
    rfl
  obtain ⟨-, _, _, last, offset, temps, ts, hjs, -, -, haddresses⟩ :=
    hrun ctx rfl (fun _ => 0) _ _ _ _ _ [1, 2, 3] hden rfl
  cases hjs
  obtain ⟨hshape, size, hsize, hcontains, hdisjoint⟩ := hvariable _ _ _ _ rfl hfind
  obtain rfl : size = 96 := (Option.some.inj hsize).symm
  have hrange : InRange [2, 3, 4] [1, 2, 3] :=
    ⟨by decide, by decide, by decide, by decide, by decide, by decide, trivial⟩
  have hrange' : InRange [2, 3, 4] [1, 2, 2] :=
    ⟨by decide, by decide, by decide, by decide, by decide, by decide, trivial⟩
  exact ⟨c, hc, tree, p, rs, hcompiles, heq, r, hr, l, _, _, _, q, q₁, q', array, n, he,
    hindexes, ⟨ctx, last, offset, temps, ts, haddresses⟩, _, hshape, rfl, hsize,
    hcontains 1 [2, 3] hrange, hdisjoint _ _ hrange hrange' rfl rfl (by decide)⟩

end BlockLang
