import BlockLang.Proofs.Frame.Depth
import BlockLang.Proofs.Simulation.Expression

/-!
# Numbers of cells

A subscript counts rows whose size is the product of the extents after its own, so the extent of
the first subscript plays no part. The number of a cell is computed by a multiplication and an
addition for each further subscript. For subscripts in range of an array that can be addressed the
words do not wrap around.
-/

namespace BlockLang

open Int32 List

variable {ns : List Nat} {is : List Word} {n size : Nat} {a b : Word}

section Definitions

variable {R : Type} [Add R] [Mul R] (cast : Nat → R)

/-- The number of the first cell that subscripts select. Each subscript counts rows of the
extents after its own. -/
def rowMajor : List Nat → List R → R
  | _ :: ns, i :: is => i * cast ns.prod + rowMajor ns is
  | _, _ => cast 0

/-- The results of the operations that compute the number of a cell from the number `w` of a
row: with each further subscript a product and a sum, and last a product with what is left
of the extents. -/
def rowSteps (w : R) : List Nat → List R → List R
  | ns, i :: is =>
      let scaled := w * cast (ns.headD 0)
      scaled :: (scaled + i) :: rowSteps (scaled + i) ns.tail is
  | [], [] => []
  | n :: ns, [] => [w * cast (n :: ns).prod]

end Definitions

/-- Subscripts are in range of the extents at their positions. -/
def InRange : List Nat → List Word → Prop
  | _, [] => True
  | [], _ :: _ => False
  | n :: ns, i :: is => 0 ≤ i.toInt ∧ i.toInt < n ∧ InRange ns is

/-- The number of a cell, over unbounded numbers. -/
def cellIndex (extents : List Nat) (is : List Word) : Int :=
  rowMajor Nat.cast extents (is.map toInt)

/-- Computed in words the number is that over unbounded numbers, reduced to a word. -/
theorem rowMajor_eq_ofInt (ns : List Nat) (is : List Word) :
    rowMajor ofNat ns is = .ofInt (cellIndex ns is) := by
  induction is generalizing ns with
  | nil => cases ns <;> rfl
  | cons i is ih =>
    cases ns with
    | nil => rfl
    | cons n ns =>
      have hcons : cellIndex (n :: ns) (i :: is) = i.toInt * ns.prod + cellIndex ns is := rfl
      rw [rowMajor, ih, hcons, ofInt_add, ofInt_mul, ofInt_toInt,
        ofInt_eq_ofNat]

/-- The steps in words end in the sum over the subscripts, whether these are in range or
not. -/
theorem rowNumber_mul_prod_eq (w : Word) (ns : List Nat) (is : List Word)
    (h : is.length ≤ ns.length) :
    rowNumber w ns is * .ofNat (ns.drop is.length).prod =
      w * .ofNat ns.prod + rowMajor ofNat ns is := by
  induction is generalizing ns w with
  | nil =>
    cases ns <;> simp [rowNumber, rowMajor]
  | cons i is ih =>
    cases ns with
    | nil => cases h
    | cons n ns =>
      rw [rowNumber, length_cons, drop_succ_cons, headD_cons, tail_cons,
        ih _ _ (Nat.le_of_succ_le_succ h), rowMajor, prod_cons, ofNat_mul]
      grind

/-! ### Steps in range -/

/-- A word is the number that it should be, and so is its product with the size of an
element. -/
def Fits (size : Nat) (w : Word) (z : Int) : Prop :=
  w.toInt = z ∧ 0 ≤ z ∧ z * size < offsetLimit

private theorem bmod_eq_self {z : Int} (hz : 0 ≤ z) (hlt : z < offsetLimit) :
    z.bmod (2 ^ 32) = z := by
  unfold offsetLimit at hlt
  exact Int.bmod_eq_of_le (by omega) (by omega)

theorem toInt_mul_of_lt (hnonneg : 0 ≤ a.toInt * b.toInt) (hlt : a.toInt * b.toInt < offsetLimit) :
    (a * b).toInt = a.toInt * b.toInt := by
  rw [toInt_mul, bmod_eq_self hnonneg hlt]

theorem toInt_add_of_lt (hnonneg : 0 ≤ a.toInt + b.toInt) (hlt : a.toInt + b.toInt < offsetLimit) :
    (a + b).toInt = a.toInt + b.toInt := by
  rw [toInt_add, bmod_eq_self hnonneg hlt]

/-- A product with an extent is exact if one row more would still fit. -/
theorem fits_mul {w : Word} (hsize : 1 ≤ size) (hw : 0 ≤ w.toInt)
    (hfits : (w.toInt + 1) * n * size < offsetLimit) : Fits size (w * .ofNat n) (w.toInt * n) := by
  have hn : (n : Int) * size ≤ (w.toInt + 1) * n * size := by
    have hone : (1 : Int) * (n * size) ≤ (w.toInt + 1) * (n * size) :=
      mul_le_mul_of_nonneg_right (by omega) (by positivity)
    linarith
  have hcast : (n : Int) ≤ n * size :=
    le_mul_of_one_le_right (by positivity) (by exact_mod_cast hsize)
  have hofNat : (ofNat n).toInt = n :=
    toInt_ofNat_of_lt (by unfold offsetLimit at hfits; omega)
  have hprod : w.toInt * n * size ≤ (w.toInt + 1) * n * size := by
    have hextra : (0 : Int) ≤ n * size := by positivity
    linarith
  have hnonneg : 0 ≤ w.toInt * n := by positivity
  have hle : w.toInt * n ≤ w.toInt * n * size :=
    le_mul_of_one_le_right hnonneg (by exact_mod_cast hsize)
  refine ⟨?_, hnonneg, by omega⟩
  rw [toInt_mul_of_lt, hofNat] <;> rw [hofNat] <;> omega

/-- For subscripts in range no step wraps around, if one row more than those counted so far
would still fit. -/
theorem rowSteps_exact (hsize : 1 ≤ size) (is : List Word) (ns : List Nat) (w : Word)
    (hns : ∀ n ∈ ns, 1 ≤ n) (hrange : InRange ns is) (hw : 0 ≤ w.toInt)
    (hfits : (w.toInt + 1) * ns.prod * size < offsetLimit) :
    List.Forall₂ (Fits size) (rowSteps ofNat w ns is)
      (rowSteps Nat.cast w.toInt ns (is.map toInt)) := by
  induction is generalizing ns w with
  | nil =>
    cases ns with
    | nil => exact .nil
    | cons n ns => exact .cons (fits_mul hsize hw hfits) .nil
  | cons i is ih =>
    cases ns with
    | nil => exact hrange.elim
    | cons n ns =>
      obtain ⟨hi, hlt, hrange⟩ := hrange
      have hmore : ∀ m ∈ ns, 1 ≤ m := fun m hm => hns m (mem_cons_of_mem _ hm)
      have hprod : (1 : Int) ≤ ns.prod := by exact_mod_cast prod_pos hmore
      have hpos : (1 : Int) ≤ size := by exact_mod_cast hsize
      rw [prod_cons, Nat.cast_mul, ← mul_assoc] at hfits
      -- the rows counted with this subscript, and one more, lie in the rows counted before
      have hrow : (w.toInt * n + i.toInt + 1) * ns.prod * size ≤
          (w.toInt + 1) * n * ns.prod * size := by
        gcongr
        linarith
      have hnumber : 0 ≤ w.toInt * n + i.toInt := by positivity
      have hcell : (w.toInt * n + i.toInt) * size ≤
          (w.toInt * n + i.toInt + 1) * ns.prod * size := by
        have hle : w.toInt * n + i.toInt + 1 ≤ (w.toInt * n + i.toInt + 1) * ns.prod :=
          le_mul_of_one_le_right (by omega) hprod
        gcongr
        omega
      have hscaled : Fits size (w * .ofNat n) (w.toInt * n) := by
        have hle : (w.toInt + 1) * n ≤ (w.toInt + 1) * n * ns.prod :=
          le_mul_of_one_le_right (by positivity) hprod
        refine fits_mul hsize hw (lt_of_le_of_lt ?_ hfits)
        exact mul_le_mul_of_nonneg_right hle (by positivity)
      have hsum : Fits size (w * .ofNat n + i) (w.toInt * n + i.toInt) := by
        obtain ⟨hvalue, hnonneg, -⟩ := hscaled
        have hle : w.toInt * n + i.toInt ≤ (w.toInt * n + i.toInt) * size :=
          le_mul_of_one_le_right (by omega) hpos
        refine ⟨?_, by omega, by omega⟩
        rw [toInt_add_of_lt, hvalue] <;> rw [hvalue] <;> omega
      refine .cons hscaled (.cons hsum ?_)
      have hrest := ih ns (w * .ofNat n + i) hmore hrange (hsum.1 ▸ hsum.2.1)
        (by rw [hsum.1]; omega)
      rwa [hsum.1] at hrest

/-- So no step wraps around from the first subscript on, if the whole array fits. -/
theorem steps_exact (hsize : 1 ≤ size) (hns : ∀ m ∈ ns, 1 ≤ m)
    (hfits : size * (n :: ns).prod < offsetLimit) {i : Word}
    (hrange : InRange (n :: ns) (i :: is)) :
    List.Forall₂ (Fits size) (i :: rowSteps ofNat i ns is)
      (i.toInt :: rowSteps Nat.cast i.toInt ns (is.map toInt)) := by
  obtain ⟨hi, hlt, hrange⟩ := hrange
  have htotal : (n : Int) * ns.prod * size < offsetLimit := by
    rw [prod_cons, Nat.mul_comm] at hfits
    exact_mod_cast hfits
  -- the row of the first subscript, and all rows before it, lie in the array
  have hrow : (i.toInt + 1) * ns.prod * size ≤ n * ns.prod * size := by
    gcongr
    omega
  have hprod : (1 : Int) ≤ ns.prod := by exact_mod_cast prod_pos hns
  have hfirst : i.toInt * size ≤ (i.toInt + 1) * ns.prod * size := by
    have hle : i.toInt + 1 ≤ (i.toInt + 1) * ns.prod := le_mul_of_one_le_right (by omega) hprod
    gcongr
    omega
  refine .cons ⟨rfl, hi, by omega⟩ ?_
  exact rowSteps_exact hsize is ns i hns hrange hi (lt_of_le_of_lt hrow htotal)

/-! ### Cells in range -/

/-- The number of a cell or row in range, with the cells of the row, is within the array. -/
theorem cellIndex_add_prod_le (h : InRange ns is) :
    0 ≤ cellIndex ns is ∧ cellIndex ns is + (ns.drop is.length).prod ≤ ns.prod := by
  induction is generalizing ns with
  | nil =>
    have hzero : cellIndex ns [] = 0 := by cases ns <;> rfl
    rw [hzero]
    simp
  | cons i is ih =>
    cases ns with
    | nil => exact h.elim
    | cons n ns =>
      obtain ⟨hi, hlt, hrange⟩ := h
      obtain ⟨hnonneg, hle⟩ := ih hrange
      have hcons : cellIndex (n :: ns) (i :: is) = i.toInt * ns.prod + cellIndex ns is := rfl
      have hrow : (i.toInt + 1) * ns.prod ≤ n * ns.prod :=
        mul_le_mul_of_nonneg_right (by omega) (by positivity)
      rw [hcons, length_cons, drop_succ_cons, prod_cons, Nat.cast_mul]
      exact ⟨by positivity, by linarith⟩

private theorem eq_of_rows_eq {i j r r' size : Int} (hr : 0 ≤ r ∧ r < size)
    (hr' : 0 ≤ r' ∧ r' < size) (h : i * size + r = j * size + r') : i = j ∧ r = r' := by
  have hsize : 0 < size := lt_of_le_of_lt hr.1 hr.2
  have hfirst := (Int.ediv_emod_unique hsize (a := i * size + r) (q := i) (r := r)).mpr
    ⟨by ring, hr⟩
  have hsecond := (Int.ediv_emod_unique hsize (a := i * size + r) (q := j) (r := r')).mpr
    ⟨by rw [h]; ring, hr'⟩
  exact ⟨hfirst.1.symm.trans hsecond.1, hfirst.2.symm.trans hsecond.2⟩

/-- Subscripts that select different cells give different numbers. -/
theorem cellIndex_injective {js : List Word} (hi : InRange ns is) (hj : InRange ns js)
    (hlength : is.length = ns.length) (hlength' : js.length = ns.length)
    (heq : cellIndex ns is = cellIndex ns js) : is = js := by
  induction ns generalizing is js with
  | nil =>
    rw [length_eq_zero_iff.mp hlength, length_eq_zero_iff.mp hlength']
  | cons n ns ih =>
    cases is with
    | nil => cases hlength
    | cons i is =>
      cases js with
      | nil => cases hlength'
      | cons j js =>
        have hlength := Nat.succ.inj hlength
        have hlength' := Nat.succ.inj hlength'
        obtain ⟨hnonneg, hle⟩ := cellIndex_add_prod_le hi.2.2
        obtain ⟨hnonneg', hle'⟩ := cellIndex_add_prod_le hj.2.2
        rw [hlength, drop_length, prod_nil, Nat.cast_one] at hle
        rw [hlength', drop_length, prod_nil, Nat.cast_one] at hle'
        obtain ⟨hrow, hrest⟩ := eq_of_rows_eq (i := i.toInt) (j := j.toInt) ⟨hnonneg, by omega⟩
          ⟨hnonneg', by omega⟩ heq
        rw [toInt_inj.mp hrow, ih hi.2.2 hj.2.2 hlength hlength' hrest]

end BlockLang
