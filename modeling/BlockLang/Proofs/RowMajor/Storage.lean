import BlockLang.Proofs.RowMajor.Index

/-!
# Cells of a storage

A storage is a row of cells of one type from an address on, with extents by which they are
numbered. Subscripts select a cell or a row of it, and it makes no difference whether they are
applied one after the other or all together.
-/

namespace BlockLang

open Eval List

variable {ctx : Context} {first : Expr} {more : List Expr} {ns : List Nat} {is : List Word}
  {s s' : Store}

/-! ### Subscripts one after the other -/

theorem cellIndex_nil (ns : List Nat) : cellIndex ns [] = 0 := by
  cases ns <;> rfl

theorem cellIndex_append (ns : List Nat) (js is : List Word) :
    cellIndex ns (js ++ is) = cellIndex ns js + cellIndex (ns.drop js.length) is := by
  induction js generalizing ns with
  | nil =>
    rw [cellIndex_nil, zero_add]
    rfl
  | cons j js ih =>
    cases ns with
    | nil =>
      have hnil : ∀ is, cellIndex [] is = 0 := fun is => by cases is <;> rfl
      rw [drop_nil, hnil, hnil, hnil, add_zero]
    | cons n ns =>
      have hcons : ∀ is, cellIndex (n :: ns) (j :: is) = j.toInt * ns.prod + cellIndex ns is :=
        fun _ => rfl
      rw [cons_append, hcons, hcons, ih, length_cons, drop_succ_cons, add_assoc]

theorem inRange_nil (ns : List Nat) : InRange ns [] := by
  cases ns <;> trivial

theorem inRange_append {js : List Word} :
    InRange ns (js ++ is) ↔ InRange ns js ∧ InRange (ns.drop js.length) is := by
  induction js generalizing ns with
  | nil =>
    rw [and_iff_right (inRange_nil ns)]
    rfl
  | cons j js ih =>
    cases ns with
    | nil => exact ⟨False.elim, fun h => h.1⟩
    | cons n ns =>
      rw [cons_append, length_cons, drop_succ_cons]
      change (_ ∧ _ ∧ InRange ns (js ++ is)) ↔ (_ ∧ _ ∧ InRange ns js) ∧ _
      rw [ih, and_assoc, and_assoc]

/-- For subscripts in range there is a cell. -/
theorem cellNumber?_of_inRange (h : InRange ns is) :
    cellNumber? ns is = some (cellIndex ns is).toNat := by
  induction is generalizing ns with
  | nil =>
    rw [cellIndex_nil]
    cases ns <;> rfl
  | cons i is ih =>
    cases ns with
    | nil => exact h.elim
    | cons n ns =>
      obtain ⟨hi, hlt, hrange⟩ := h
      obtain ⟨hnonneg, -⟩ := cellIndex_add_prod_le hrange
      have hcons : cellIndex (n :: ns) (i :: is) = i.toInt * ns.prod + cellIndex ns is := rfl
      rw [cellNumber?, if_pos ⟨hi, hlt⟩, ih hrange, Option.map_some, hcons,
        Int.toNat_add (by positivity) hnonneg, Int.toNat_mul hi (by positivity), Int.toNat_natCast]

theorem Eval.exists_of_bind {α β : Type} {x : Eval α} {f : α → Eval β} {b : β}
    (h : (x >>= f) s = .ok (b, s')) : ∃ a s1, x s = .ok (a, s1) ∧ f a s1 = .ok (b, s') := by
  rw [bind_run] at h
  cases hx : x s with
  | error fault =>
    rw [hx] at h
    cases h
  | ok result =>
    rw [hx] at h
    exact ⟨result.1, result.2, rfl, h⟩

/-- There are as many values as subscripts. -/
theorem Expr.length_subscripts {d : Denoted} {es : List Expr}
    (h : Expr.subscripts ctx .late d es s = .ok (is, s')) : is.length = es.length + 1 := by
  induction es generalizing d s is with
  | nil =>
    rw [Expr.subscripts] at h
    obtain ⟨i, s1, -, hi⟩ := exists_of_bind h
    cases hi
    rfl
  | cons e es ih =>
    rw [Expr.subscripts] at h
    obtain ⟨d', s1, -, h⟩ := exists_of_bind h
    obtain ⟨i, s2, -, h⟩ := exists_of_bind h
    obtain ⟨j, s3, -, h⟩ := exists_of_bind h
    obtain ⟨is', s4, his', h⟩ := exists_of_bind h
    cases h
    rw [length_cons, length_cons, ih his']

theorem Expr.length_indices (h : Expr.indices ctx first more s = .ok (is, s')) :
    is.length = more.length + 1 := by
  obtain ⟨d, s1, -, h⟩ := exists_of_bind h
  exact Expr.length_subscripts h

/-- The array of an index expression is evaluated first, then its subscripts. -/
theorem Expr.denote_index {l : Location} {base : Expr} {s1 s2 : Store} {array : Denoted}
    (hbase : base.denote ctx .late s = .ok (array, s1))
    (his : Expr.indices ctx first more s1 = .ok (is, s2)) :
    (Expr.index l base first more).denote ctx .late s = array.select is s2 := by
  obtain ⟨d, s3, hd, his⟩ := exists_of_bind his
  rw [Expr.denote, Eval.bind_of_ok hbase, Eval.bind_of_ok hd, Eval.settle_late_bind,
    Eval.bind_of_ok his]

/-! ### Storages -/

/-- Cells of one type, which are numbered by extents and stand one after the other. -/
structure Storage where
  shape : Shape
  address : Word

namespace Storage

variable (A : Storage) {is js : List Word}

/-- The address of the cell or row that subscripts select. -/
def select (is : List Word) : Word :=
  A.address + .ofInt (A.shape.ty.size * cellIndex A.shape.extents is)

/-- The extents that are left when subscripts have been applied. -/
def rest (is : List Word) : List Nat := A.shape.extents.drop is.length

/-- The cell or row that subscripts select. -/
def part (is : List Word) : Denoted := .place ⟨A.shape.ty, A.rest is⟩ (A.select is)

/-- The memory of the cell or row that subscripts select. -/
def bytes (is : List Word) : Set Word :=
  Set.image (fun k : Int => A.address + .ofInt k)
    (Set.Ico (A.shape.ty.size * cellIndex A.shape.extents is)
      (A.shape.ty.size * cellIndex A.shape.extents is + A.shape.ty.size * (A.rest is).prod))

theorem rest_append (js is : List Word) : A.rest (js ++ is) = (A.rest js).drop is.length := by
  rw [rest, rest, length_append, drop_drop]

theorem select_nil : A.select [] = A.address := by
  rw [select, cellIndex_nil, mul_zero]
  exact Int32.add_zero _

/-- Further subscripts count the cells of the row from its address on. -/
theorem select_append (js is : List Word) : A.select (js ++ is) =
    A.select js + .ofNat A.shape.ty.size * rowMajor Int32.ofNat (A.rest js) is := by
  have hoffset : Int32.ofInt (A.shape.ty.size * cellIndex (A.rest js) is) =
      .ofNat A.shape.ty.size * rowMajor Int32.ofNat (A.rest js) is := by
    rw [rowMajor_eq_ofInt, Int32.ofInt_mul, Int32.ofInt_eq_ofNat]
  rw [select, select, cellIndex_append, mul_add, Int32.ofInt_add, ← Int32.add_assoc, ← hoffset,
    rest]

variable {A}

/-- Further subscripts in range select a part of a part. -/
theorem select_part (h : InRange (A.rest js) is) (s : Store) :
    (A.part js).select is s = .ok (A.part (js ++ is), s) := by
  obtain ⟨hnonneg, -⟩ := cellIndex_add_prod_le h
  have haddress : A.select js + .ofNat (A.shape.ty.size * (cellIndex (A.rest js) is).toNat) =
      A.select (js ++ is) := by
    rw [select_append, rowMajor_eq_ofInt, Int32.ofNat_mul, ← Int32.ofInt_eq_ofNat,
      ← Int32.ofInt_eq_ofNat, Int.toNat_of_nonneg hnonneg]
  rw [part, Denoted.select, cellNumber?_of_inRange h, part, rest_append, ← haddress]
  rfl

/-- A part of a row lies inside it. -/
theorem bytes_append_subset (h : InRange (A.rest js) is) : A.bytes (js ++ is) ⊆ A.bytes js := by
  obtain ⟨hnonneg, hle⟩ := cellIndex_add_prod_le h
  have hend : (A.shape.ty.size : Int) * (cellIndex (A.rest js) is +
      ((A.rest js).drop is.length).prod) ≤ A.shape.ty.size * (A.rest js).prod :=
    mul_le_mul_of_nonneg_left hle (by positivity)
  have hstart : (0 : Int) ≤ A.shape.ty.size * cellIndex (A.rest js) is := by positivity
  have happend : cellIndex A.shape.extents (js ++ is) =
      cellIndex A.shape.extents js + cellIndex (A.rest js) is := cellIndex_append _ _ _
  refine Set.image_mono (Set.Ico_subset_Ico ?_ ?_)
  · rw [happend, mul_add]
    omega
  · rw [happend, rest_append]
    linarith

/-- Every part lies in the storage. -/
theorem bytes_subset (h : InRange A.shape.extents is) : A.bytes is ⊆ A.bytes [] := by
  have h' : InRange (A.rest []) is := h
  exact bytes_append_subset h'

end Storage

end BlockLang
