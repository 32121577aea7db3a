import BlockLang.Frame
import Mathlib.Algebra.Order.Floor.Div
import Mathlib.Algebra.Order.Ring.Nat
import Mathlib.Data.List.Forall2

/-!
# Frames have a place for everything

Without a limit on offsets, an item starts where the one before it ends, an integer at the next
whole word. A frame is laid out exactly when what is reached in this way, in whole words, stays
below the limit.
-/

namespace BlockLang

open List

/-! ### Results for each of a list -/

section Lists

variable {α β γ : Type} {xs : List α} {ys : List β}

/-- Where each step of a list gives a result, the results belong to the items in order. -/
theorem forall₂_of_mapM {m : Type → Type} [Monad m] [LawfulMonad m] {f : α → m β}
    (hbind : ∀ {α β : Type} {x : m α} {g : α → m β} {b : β}, x >>= g = pure b →
      ∃ a, x = pure a ∧ g a = pure b)
    (hpure : ∀ {α : Type} {a b : α}, (pure a : m α) = pure b → a = b)
    (h : xs.mapM f = pure ys) : Forall₂ (fun x y => f x = pure y) xs ys := by
  induction xs generalizing ys with
  | nil => exact hpure h ▸ .nil
  | cons x xs ih =>
    rw [mapM_cons] at h
    obtain ⟨z, hz, h1⟩ := hbind h
    obtain ⟨zs, hzs, h2⟩ := hbind h1
    exact hpure h2 ▸ .cons hz (ih hzs)

theorem exists_of_forall₂ {R : α → β → Prop} (h : Forall₂ R xs ys) {y : β} (hy : y ∈ ys) :
    ∃ x ∈ xs, R x y := by
  obtain ⟨i, hi, rfl⟩ := mem_iff_getElem.mp hy
  have hi' : i < xs.length := h.length_eq ▸ hi
  exact ⟨xs[i], getElem_mem hi', (forall₂_iff_get.mp h).2 i hi' hi⟩

theorem map_eq_map_of_forall₂ {R : α → β → Prop} {f : α → γ} {g : β → γ} (h : Forall₂ R xs ys)
    (hfg : ∀ a b, R a b → f a = g b) : xs.map f = ys.map g := by
  rw [← forall₂_eq_eq_eq, forall₂_map_left_iff, forall₂_map_right_iff]
  exact h.imp hfg

end Lists

namespace Frame

section Items

variable {κ : Type}

theorem le_align (bytes : Nat) : bytes ≤ align bytes := by
  unfold align word
  omega

theorem align_mono {a b : Nat} (h : a ≤ b) : align a ≤ align b :=
  Nat.mul_le_mul_right _ (Nat.div_le_div_right (Nat.add_le_add_right h _))

theorem word_mul_ceilDiv (bytes : Nat) : word * (bytes ⌈/⌉ word) = align bytes := by
  rw [Nat.ceilDiv_eq_add_pred_div, Nat.mul_comm]
  rfl

/-- The bytes in use after an item has been placed below `top` bytes: an integer starts
on a whole word. -/
def below (top : Nat) (item : κ × Ty × Nat) : Nat :=
  (if item.2.1 = .int then word * (top ⌈/⌉ word) else top) + item.2.2

/-- The bytes in use after items have been placed below `top` bytes. -/
def depth (top : Nat) (items : List (κ × Ty × Nat)) : Nat := items.foldl below top

/-- Where the items lie that are placed below `top` bytes, the last in front. -/
def offsets (top : Nat) : List (κ × Ty × Nat) → List (κ × Int)
  | [] => []
  | item :: items => offsets (below top item) items ++ [(item.1, -(below top item : Int))]

theorem depth_cons (top : Nat) (item : κ × Ty × Nat) (items : List (κ × Ty × Nat)) :
    depth top (item :: items) = depth (below top item) items := rfl

theorem depth_append (top : Nat) (items more : List (κ × Ty × Nat)) :
    depth top (items ++ more) = depth (depth top items) more := foldl_append

theorem le_below (top : Nat) (item : κ × Ty × Nat) : top + item.2.2 ≤ below top item := by
  have hle := le_align top
  unfold below
  rw [word_mul_ceilDiv]
  split <;> omega

theorem le_depth (top : Nat) (items : List (κ × Ty × Nat)) : top ≤ depth top items := by
  induction items generalizing top with
  | nil => exact Nat.le_refl top
  | cons item items ih =>
    have hitem := le_below top item
    have hrest := ih (below top item)
    rw [depth_cons]
    omega

theorem offsets_append (top : Nat) (items more : List (κ × Ty × Nat)) :
    offsets top (items ++ more) = offsets (depth top items) more ++ offsets top items := by
  induction items generalizing top with
  | nil => simp [offsets, depth]
  | cons item items ih => simp [offsets, ih, depth_cons]

/-- Items are placed in their order, the last in front. -/
theorem keys_offsets (top : Nat) (items : List (κ × Ty × Nat)) :
    (offsets top items).map Prod.fst = (items.map Prod.fst).reverse := by
  induction items generalizing top with
  | nil => rfl
  | cons item items ih => simp [offsets, ih]

theorem lookup_offsets_isSome_iff [BEq κ] [LawfulBEq κ] {top : Nat} {items : List (κ × Ty × Nat)}
    {key : κ} : ((offsets top items).lookup key).isSome ↔ key ∈ items.map Prod.fst := by
  rw [lookup_isSome_iff, ← mem_reverse, ← keys_offsets top, mem_map]
  simp only [beq_iff_eq, @eq_comm _ key]

/-- Each item has its bytes below those in use before and above the end. -/
theorem mem_offsets [BEq κ] [LawfulBEq κ] {top : Nat} {items : List (κ × Ty × Nat)} {key : κ}
    {offset : Int} (h : (offsets top items).lookup key = some offset) :
    ∃ item ∈ items, item.1 = key ∧ offset + item.2.2 ≤ -(top : Int) ∧
      -(depth top items : Int) ≤ offset := by
  induction items generalizing top with
  | nil => cases h
  | cons item items ih =>
    have hitem := le_below top item
    have hrest := le_depth (below top item) items
    rw [offsets, lookup_append, Option.or_eq_some_iff] at h
    rw [depth_cons]
    rcases h with h | ⟨-, h⟩
    · obtain ⟨other, hmem, hkey, hhigh, hlow⟩ := ih h
      exact ⟨other, mem_cons_of_mem _ hmem, hkey, by omega, hlow⟩
    · obtain ⟨l, l', heq, -⟩ := lookup_eq_some_iff.mp h
      cases l with
      | nil =>
        cases heq
        exact ⟨item, mem_cons_self, rfl, by omega, by omega⟩
      | cons => simp at heq

theorem place?_eq (top : Nat) (item : κ × Ty × Nat) : place? top item.2.1 item.2.2 =
    if below top item < offsetLimit then some (below top item) else none := by
  rw [below, word_mul_ceilDiv]
  rfl

/-- Items are placed exactly if the bytes in use after the last stay below the limit. The
places that were found before stay behind. -/
private theorem foldlM_place? (items : List (κ × Ty × Nat)) (placed : List (κ × Int)) {top : Nat}
    (htop : top < offsetLimit) :
    items.foldlM (fun (placed, top) (key, ty, size) => do
      let top ← place? top ty size
      return ((key, -(top : Int)) :: placed, top)) (placed, top) =
      if depth top items < offsetLimit then some (offsets top items ++ placed, depth top items)
      else none := by
  induction items generalizing placed top with
  | nil => exact (if_pos htop).symm
  | cons item items ih =>
    have hle := le_depth (below top item) items
    rw [foldlM_cons, depth_cons]
    dsimp only
    rw [place?_eq]
    by_cases hitem : below top item < offsetLimit
    · rw [if_pos hitem]
      simpa [offsets] using ih ((item.1, -(below top item : Int)) :: placed) hitem
    · rw [if_neg hitem, if_neg (by omega)]
      rfl

theorem placeAll?_eq (items : List (κ × Ty × Nat)) {top : Nat} (htop : top < offsetLimit) :
    placeAll? items top = if depth top items < offsetLimit then
      some (offsets top items, depth top items) else none := by
  rw [placeAll?, foldlM_place? items [] htop, append_nil]

end Items

def tempItem (temp : Nat × Ty) : Nat × Ty × Nat := (temp.1, temp.2, temp.2.size)

variable {f : Frame} {temps : List (Nat × Ty)} {locals : List Variable}

/-- The parts of a frame: variables, below them temporaries, and the end. -/
theorem layout?_eq_some_iff : layout? locals temps = some f ↔
    ∃ sized, locals.mapM (fun v => do return (v.name, v.ty, ← v.size?)) = some sized ∧
      align (depth (depth 0 sized) (temps.map tempItem)) < offsetLimit ∧
      f = ⟨offsets 0 sized, offsets (depth 0 sized) (temps.map tempItem),
        align (depth (depth 0 sized) (temps.map tempItem))⟩ := by
  constructor
  · intro h
    obtain ⟨sized, hsized, h1⟩ := Option.bind_eq_some_iff.mp h
    obtain ⟨⟨placed, top⟩, hplaced, h2⟩ := Option.bind_eq_some_iff.mp h1
    obtain ⟨⟨placed', top'⟩, hplaced', h3⟩ := Option.bind_eq_some_iff.mp h2
    rw [placeAll?_eq _ (by decide)] at hplaced
    obtain ⟨htop, heq⟩ := Option.ite_none_right_eq_some.mp hplaced
    cases heq
    rw [placeAll?_eq _ htop] at hplaced'
    obtain ⟨-, heq⟩ := Option.ite_none_right_eq_some.mp hplaced'
    cases heq
    obtain ⟨hsize, heq⟩ := Option.ite_none_right_eq_some.mp h3
    cases heq
    exact ⟨sized, hsized, hsize, rfl⟩
  · rintro ⟨sized, hsized, hsize, rfl⟩
    have htemps := le_depth (depth 0 sized) (temps.map tempItem)
    have hend := le_align (depth (depth 0 sized) (temps.map tempItem))
    have hplaced := (placeAll?_eq sized (show 0 < offsetLimit by decide)).trans
      (if_pos (by omega))
    have hplaced' := (placeAll?_eq (temps.map tempItem)
      (show depth 0 sized < offsetLimit by omega)).trans (if_pos (by omega))
    exact Option.bind_eq_some_iff.mpr ⟨sized, hsized, Option.bind_eq_some_iff.mpr ⟨_, hplaced,
      Option.bind_eq_some_iff.mpr ⟨_, hplaced', if_pos hsize⟩⟩⟩

theorem sized_of_mapM {sized : List (String × Ty × Nat)}
    (h : locals.mapM (fun v => do return (v.name, v.ty, ← v.size?)) = some sized) :
    Forall₂ (fun v item => v.size? = some item.2.2 ∧ item = (v.name, v.ty, item.2.2)) locals
      sized := by
  refine (forall₂_of_mapM Option.bind_eq_some_iff.mp Option.some.inj h).imp fun v item hitem => ?_
  obtain ⟨size, hsize, heq⟩ := Option.bind_eq_some_iff.mp hitem
  cases heq
  exact ⟨hsize, rfl⟩

theorem names_sized {sized : List (String × Ty × Nat)}
    (h : locals.mapM (fun v => do return (v.name, v.ty, ← v.size?)) = some sized) :
    locals.map Variable.name = sized.map Prod.fst :=
  map_eq_map_of_forall₂ (sized_of_mapM h) fun _ _ hitem => by rw [hitem.2]

/-- A variable keeps its offset when further variables and temporaries are placed, unless
one of them has its name. -/
theorem variableOffset?_append (h : layout? locals temps = some f) {more : List Variable}
    {temps' : List (Nat × Ty)} {f' : Frame} (h' : layout? (locals ++ more) temps' = some f')
    {x : String} (hx : x ∉ more.map Variable.name) :
    f'.variableOffset? x = f.variableOffset? x := by
  obtain ⟨sized, hsized, -, rfl⟩ := layout?_eq_some_iff.mp h
  obtain ⟨sized', hsized', -, rfl⟩ := layout?_eq_some_iff.mp h'
  rw [mapM_append, hsized] at hsized'
  obtain ⟨sizedMore, hmore, rfl⟩ : ∃ sizedMore,
      more.mapM (fun v => do return (v.name, v.ty, ← v.size?)) = some sizedMore ∧
        sized ++ sizedMore = sized' := by
    simpa [Option.bind_eq_some_iff] using hsized'
  have hnone : (offsets (depth 0 sized) sizedMore).lookup x = none := by
    rw [← Option.not_isSome_iff_eq_none, lookup_offsets_isSome_iff, ← names_sized hmore]
    exact hx
  rw [variableOffset?, variableOffset?, offsets_append, lookup_append, hnone, Option.none_or]

variable (h : layout? locals temps = some f)

include h

theorem variableOffset?_isSome {v : Variable} (hv : v ∈ locals) :
    (f.variableOffset? v.name).isSome := by
  obtain ⟨sized, hsized, -, rfl⟩ := layout?_eq_some_iff.mp h
  rw [variableOffset?, lookup_offsets_isSome_iff, ← names_sized hsized]
  exact mem_map_of_mem hv

theorem tempOffset?_isSome {n : Nat} (hn : n ∈ temps.map Prod.fst) : (f.tempOffset? n).isSome := by
  obtain ⟨sized, -, -, rfl⟩ := layout?_eq_some_iff.mp h
  rw [tempOffset?, lookup_offsets_isSome_iff, map_map]
  exact hn

/-- A variable lies in its frame with all of its bytes. -/
theorem variableOffset?_mem {x : String} {offset : Int} (hx : f.variableOffset? x = some offset) :
    ∃ v ∈ locals, v.name = x ∧ ∃ size : Nat,
      v.size? = some size ∧ offset + size ≤ 0 ∧ -(f.size : Int) ≤ offset := by
  obtain ⟨sized, hsized, -, rfl⟩ := layout?_eq_some_iff.mp h
  obtain ⟨item, hitem, rfl, hhigh, hlow⟩ := mem_offsets hx
  obtain ⟨v, hv, hsize, heq⟩ := exists_of_forall₂ (sized_of_mapM hsized) hitem
  have htemps := le_depth (depth 0 sized) (temps.map tempItem)
  have hend := le_align (depth (depth 0 sized) (temps.map tempItem))
  exact ⟨v, hv, (congrArg Prod.fst heq).symm, _, hsize, hhigh, by dsimp only; omega⟩

/-- A temporary lies in its frame with all of its bytes. -/
theorem tempOffset?_mem {n : Nat} {offset : Int} (hn : f.tempOffset? n = some offset) :
    ∃ ty, (n, ty) ∈ temps ∧ offset + ty.size ≤ 0 ∧ -(f.size : Int) ≤ offset := by
  obtain ⟨sized, -, -, rfl⟩ := layout?_eq_some_iff.mp h
  obtain ⟨item, hitem, rfl, hhigh, hlow⟩ := mem_offsets hn
  obtain ⟨⟨n, ty⟩, htemp, rfl⟩ := mem_map.mp hitem
  have hend := le_align (depth (depth 0 sized) (temps.map tempItem))
  dsimp only [tempItem] at hhigh ⊢
  exact ⟨ty, htemp, by omega, by omega⟩

end Frame

end BlockLang
