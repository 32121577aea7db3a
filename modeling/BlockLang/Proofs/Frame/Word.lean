import BlockLang.Proofs.Frame.Depth

/-!
# Layout in machine words

In 32-bit words the products, sums and offsets of a layout are checked. Rounding up and the change
of sign are not, and would drop the upper bits of a result. Here they stop the computation with a
halt of their own, which no layout comes to.
-/

namespace BlockLang

open Except BlockLang.Frame UInt32

variable {a b bytes top : UInt32}

/-- Why a computation in words has no result. -/
inductive Halt
  /-- A result that is checked does not fit. -/
  | tooLarge
  /-- A result that is not checked does not fit: its upper bits would be dropped. -/
  | wrapped
  deriving DecidableEq

/-- A frame with offsets and size as 32-bit words. -/
structure WordFrame where
  locals : List (String × Int32)
  temps : List (Nat × Int32)
  size : UInt32

namespace WordFrame

def toFrame (f : WordFrame) : Frame :=
  ⟨f.locals.map (Prod.map id Int32.toInt), f.temps.map (Prod.map id Int32.toInt), f.size.toNat⟩

/-! ### Operations on words -/

/-- The sum of two words, with what follows if it does not fit. -/
def sum (halt : Halt) (a b : UInt32) : Except Halt UInt32 :=
  if a.toNat + b.toNat < wordLimit then .ok (a + b) else .error halt

/-- The product of two words, with what follows if it does not fit. -/
def product (halt : Halt) (a b : UInt32) : Except Halt UInt32 :=
  if a.toNat * b.toNat < wordLimit then .ok (a * b) else .error halt

/-- The change of sign, which the least signed word does not admit. -/
def negated (a : Int32) : Except Halt Int32 :=
  if a = Int32.minValue then .error .wrapped else .ok (-a)

def extent (n : Nat) : Except Halt UInt32 :=
  if n < wordLimit then .ok (.ofNat n) else .error .tooLarge

def signed (a : UInt32) : Except Halt Int32 :=
  if a.toNat < offsetLimit then .ok a.toInt32 else .error .tooLarge

/-- The least number of machine words that holds so many bytes. -/
def wordCount (bytes : UInt32) : Except Halt UInt32 :=
  if 0 < bytes % 4 then sum .wrapped (bytes / 4) 1 else .ok (bytes / 4)

/-- The bytes of the least number of machine words that holds so many bytes. -/
def align (bytes : UInt32) : Except Halt UInt32 := do
  product .wrapped (← wordCount bytes) 4

/-- Where an item starts below `top` bytes. -/
def start (top : UInt32) (ty : Ty) : Except Halt UInt32 :=
  if ty = .int then align top else .ok top

/-- The bytes in use after an item has been placed below `top` bytes, and its offset. -/
def place (top : UInt32) (ty : Ty) (size : UInt32) : Except Halt (UInt32 × Int32) := do
  let top ← sum .tooLarge (← start top ty) size
  return (top, ← negated (← signed top))

/-- The bytes of so many variables, for one extent more. -/
def extend (size : UInt32) (n : Nat) : Except Halt UInt32 := do
  product .tooLarge size (← extent n)

def variableSize (v : Variable) : Except Halt UInt32 := do
  let size ← v.extents.foldlM extend (.ofNat v.ty.size)
  let _ ← signed size
  return size

section Items

variable {α κ : Type} (item : α → Except Halt (κ × Ty × UInt32))

/-- Places an item below the others. -/
def placeNext (used : List (κ × Int32) × UInt32) (x : α) :
    Except Halt (List (κ × Int32) × UInt32) := do
  let (key, ty, size) ← item x
  let (top, offset) ← place used.2 ty size
  return ((key, offset) :: used.1, top)

/-- Places items one below the other, each as soon as its size is known. -/
def placeAll (xs : List α) (top : UInt32) : Except Halt (List (κ × Int32) × UInt32) :=
  xs.foldlM (placeNext item) ([], top)

end Items

/-- The frame with given variables and temporaries. -/
def layout (locals : List Variable) (temps : List (Nat × Ty)) : Except Halt WordFrame := do
  let (locals, top) ← placeAll (fun v => do return (v.name, v.ty, ← variableSize v)) locals 0
  let (temps, top) ← placeAll (fun (n, ty) => pure (n, ty, .ofNat ty.size)) temps top
  let size ← align top
  let _ ← signed size
  return ⟨locals, temps, size⟩

/-! ### Words and numbers -/

section Agreement

variable {α β γ δ : Type}

/-- A computation in words has the result of one with numbers, and halts only where that one
has none, because of a check. -/
def Agrees (view : α → β) (x : Except Halt α) (y : Option β) : Prop :=
  x.map view = y.elim (.error .tooLarge) .ok

theorem Agrees.of_some {view : α → β} {x : Except Halt α} {b : β} (h : Agrees view x (some b)) :
    ∃ a, x = .ok a ∧ view a = b := by
  cases x with
  | error halt => cases h
  | ok a => exact ⟨a, rfl, ok.inj h⟩

theorem Agrees.of_none {view : α → β} {x : Except Halt α} (h : Agrees view x none) :
    x = .error .tooLarge := by
  cases x with
  | error halt => exact congrArg _ (error.inj h)
  | ok a => cases h

theorem agrees_pure (view : α → β) (a : α) : Agrees view (pure a) (some (view a)) := rfl

theorem Agrees.bind {view : α → β} {view' : γ → δ} {x : Except Halt α} {y : Option β}
    {f : α → Except Halt γ} {g : β → Option δ} (h : Agrees view x y)
    (hfg : ∀ a, y = some (view a) → Agrees view' (f a) (g (view a))) :
    Agrees view' (x >>= f) (y >>= g) := by
  cases y with
  | none =>
    rw [h.of_none]
    rfl
  | some b =>
    obtain ⟨a, rfl, rfl⟩ := h.of_some
    exact hfg a rfl

theorem sum_eq (halt : Halt) (h : a.toNat + b.toNat < wordLimit) :
    ∃ c, sum halt a b = .ok c ∧ c.toNat = a.toNat + b.toNat := by
  refine ⟨a + b, if_pos h, ?_⟩
  rw [UInt32.toNat_add]
  exact Nat.mod_eq_of_lt h

theorem product_eq (halt : Halt) (h : a.toNat * b.toNat < wordLimit) :
    ∃ c, product halt a b = .ok c ∧ c.toNat = a.toNat * b.toNat := by
  refine ⟨a * b, if_pos h, ?_⟩
  rw [UInt32.toNat_mul]
  exact Nat.mod_eq_of_lt h

theorem wordCount_eq (h : bytes.toNat < offsetLimit) :
    ∃ words, wordCount bytes = .ok words ∧ words.toNat = (bytes.toNat + 3) / 4 := by
  have hdiv : (bytes / 4).toNat = bytes.toNat / 4 := UInt32.toNat_div bytes 4
  have hmod : (bytes % 4).toNat = bytes.toNat % 4 := UInt32.toNat_mod bytes 4
  have hone : (1 : UInt32).toNat = 1 := rfl
  unfold wordCount
  by_cases hrest : 0 < bytes % 4
  · have hpos : 0 < bytes.toNat % 4 := hmod ▸ lt_iff_toNat_lt.mp hrest
    have hfits : (bytes / 4).toNat + (1 : UInt32).toNat < wordLimit := by
      unfold offsetLimit wordLimit at *
      omega
    obtain ⟨c, hc, hvalue⟩ := sum_eq .wrapped hfits
    exact ⟨c, (if_pos hrest).trans hc, by omega⟩
  · have hzero : ¬ 0 < bytes.toNat % 4 := fun hpos =>
      hrest (lt_iff_toNat_lt.mpr (hmod ▸ hpos))
    exact ⟨bytes / 4, if_neg hrest, by omega⟩

/-- Nothing is dropped when bytes below the limit for offsets are rounded up. -/
theorem align_eq (h : bytes.toNat < offsetLimit) :
    ∃ a, align bytes = .ok a ∧ a.toNat = Frame.align bytes.toNat := by
  obtain ⟨words, hwords, hcount⟩ := wordCount_eq h
  have hfour : (4 : UInt32).toNat = 4 := rfl
  have hfits : words.toNat * (4 : UInt32).toNat < wordLimit := by
    rw [hcount, hfour]
    unfold offsetLimit wordLimit at *
    omega
  obtain ⟨a, ha, hvalue⟩ := product_eq .wrapped hfits
  rw [hcount] at hvalue
  refine ⟨a, ?_, hvalue⟩
  unfold align
  rw [hwords]
  exact ha

theorem start_eq (h : top.toNat < offsetLimit) (ty : Ty) :
    ∃ a, start top ty = .ok a ∧
      a.toNat = if ty = .int then Frame.align top.toNat else top.toNat := by
  unfold start
  by_cases hty : ty = .int
  · rw [if_pos hty, if_pos hty]
    exact align_eq h
  · rw [if_neg hty, if_neg hty]
    exact ⟨top, rfl, rfl⟩

theorem toInt_toInt32 (h : a.toNat < offsetLimit) : a.toInt32.toInt = a.toNat := by
  have hlt : 2 * a.toBitVec.toNat < 2 ^ 32 := by
    rw [toNat_toBitVec]
    unfold offsetLimit at h
    omega
  rw [← Int32.toInt_toBitVec, toBitVec_toInt32, BitVec.toInt_eq_toNat_of_lt hlt,
    toNat_toBitVec]

/-- The sign that is changed is never that of the least signed word. -/
theorem negated_signed (h : a.toNat < offsetLimit) :
    ∃ offset : Int32, (signed a >>= negated) = .ok offset ∧ offset.toInt = -(a.toNat : Int) := by
  have hvalue := toInt_toInt32 h
  have hne : a.toInt32 ≠ Int32.minValue := by
    intro heq
    rw [heq] at hvalue
    have hmin : Int32.minValue.toInt = -2147483648 := rfl
    omega
  refine ⟨-a.toInt32, ?_, ?_⟩
  · unfold signed
    rw [if_pos h]
    exact if_neg hne
  · rw [Int32.toInt_neg, hvalue]
    unfold offsetLimit at h
    simp only [Int.bmod]
    omega

/-- What is placed in words lies where it is placed over numbers. -/
theorem place_agrees (htop : top.toNat < offsetLimit) (ty : Ty) (size : UInt32) :
    Agrees (Prod.map toNat Int32.toInt) (place top ty size)
      ((Frame.place? top.toNat ty size.toNat).map fun t : Nat => (t, -(t : Int))) := by
  obtain ⟨a, ha, hvalue⟩ := start_eq htop ty
  have hplace : place top ty size = (do
      let top ← sum .tooLarge a size
      return (top, ← signed top >>= negated)) := by
    unfold place
    rw [ha]
    simp only [bind_assoc]
    rfl
  have hlimit : offsetLimit < wordLimit := by decide
  rw [hplace, Frame.place?, ← hvalue]
  by_cases hsum : a.toNat + size.toNat < wordLimit
  · obtain ⟨b, hb, hbvalue⟩ := sum_eq .tooLarge hsum
    rw [hb, ← hbvalue]
    by_cases hfits : b.toNat < offsetLimit
    · obtain ⟨offset, hoffset, hneg⟩ := negated_signed hfits
      simp only [hfits, if_true, Option.map_some, Agrees, Option.elim_some]
      change (Except.map _ ((signed b >>= negated) >>= fun o => pure (b, o))) = _
      rw [hoffset]
      simp [bind, Except.bind, pure, Except.pure, Except.map, hneg]
    · have hsigned : signed b = .error .tooLarge := if_neg hfits
      simp only [hfits, if_false]
      change (Except.map _ ((signed b >>= negated) >>= fun o => pure (b, o))) = _
      rw [hsigned]
      rfl
  · have hlarge : sum .tooLarge a size = .error .tooLarge := if_neg hsum
    have hfits : ¬ a.toNat + size.toNat < offsetLimit := by omega
    simp only [hfits, if_false, hlarge]
    rfl

theorem extend_agrees (size : UInt32) (n : Nat) : Agrees toNat (extend size n)
    (if n < wordLimit ∧ size.toNat * n < wordLimit then some (size.toNat * n) else none) := by
  by_cases hn : n < wordLimit
  · have hextent : extent n = .ok (.ofNat n) := if_pos hn
    have hvalue : (ofNat n).toNat = n := by
      rw [toNat_ofNat']
      exact Nat.mod_eq_of_lt hn
    unfold extend
    rw [hextent]
    change Agrees _ (product .tooLarge size (.ofNat n)) _
    by_cases hfits : size.toNat * n < wordLimit
    · obtain ⟨c, hc, hcvalue⟩ := product_eq (a := size) (b := .ofNat n) .tooLarge (by rwa [hvalue])
      rw [if_pos ⟨hn, hfits⟩, hc, ← hvalue, ← hcvalue]
      rfl
    · rw [if_neg fun h => hfits h.2, product, hvalue, if_neg hfits]
      rfl
  · rw [if_neg fun h => hn h.1, extend, extent, if_neg hn]
    rfl

theorem foldlM_extend_agrees (ns : List Nat) (size : UInt32) :
    Agrees toNat (ns.foldlM extend size) (ns.foldlM (fun size n =>
      if n < wordLimit ∧ size * n < wordLimit then some (size * n) else none) size.toNat) := by
  induction ns generalizing size with
  | nil => exact agrees_pure toNat size
  | cons n ns ih => exact (extend_agrees size n).bind fun product _ => ih product

theorem toNat_size (ty : Ty) : (ofNat ty.size).toNat = ty.size := by
  cases ty <;> rfl

theorem variableSize_agrees (v : Variable) : Agrees toNat (variableSize v) v.size? := by
  have hfold := foldlM_extend_agrees v.extents (.ofNat v.ty.size)
  rw [toNat_size] at hfold
  refine hfold.bind fun size _ => ?_
  by_cases hfits : size.toNat < offsetLimit
  · rw [signed, if_pos hfits, if_pos hfits]
    rfl
  · rw [signed, if_neg hfits, if_neg hfits]
    rfl

variable {κ : Type}

/-- The numbers in a list of places and in the bytes in use. -/
def placesView (used : List (κ × Int32) × UInt32) : List (κ × Int) × Nat :=
  (used.1.map (Prod.map id Int32.toInt), used.2.toNat)

/-- The numbers in an item. -/
def itemView (item : κ × Ty × UInt32) : κ × Ty × Nat := (item.1, item.2.1, item.2.2.toNat)

/-- Places an item below the others, over numbers. -/
def placeNext? (used : List (κ × Int) × Nat) (item : κ × Ty × Nat) :
    Option (List (κ × Int) × Nat) :=
  (place? used.2 item.2.1 item.2.2).map fun top : Nat => ((item.1, -(top : Int)) :: used.1, top)

theorem placeAll?_eq_foldlM (items : List (κ × Ty × Nat)) (top : Nat) :
    placeAll? items top = items.foldlM placeNext? ([], top) := by
  unfold placeAll?
  congr 1
  funext ⟨placed, used⟩ ⟨key, ty, size⟩
  unfold placeNext?
  dsimp only
  cases place? used ty size <;> rfl

theorem lt_of_placeNext? {used used' : List (κ × Int) × Nat} {item : κ × Ty × Nat}
    (h : placeNext? used item = some used') : used'.2 < offsetLimit := by
  obtain ⟨top, htop, rfl⟩ := Option.map_eq_some_iff.mp h
  obtain ⟨hlt, heq⟩ := Option.ite_none_right_eq_some.mp htop
  cases heq
  exact hlt

theorem lt_of_placeAll? {items : List (κ × Ty × Nat)} {top : Nat} {used : List (κ × Int) × Nat}
    (h : placeAll? items top = some used) (htop : top < offsetLimit) :
    used.2 < offsetLimit := by
  rw [placeAll?_eq items htop] at h
  obtain ⟨hlt, heq⟩ := Option.ite_none_right_eq_some.mp h
  cases heq
  exact hlt

/-- An item is placed in words where it is placed over numbers. -/
theorem placeNext_agrees {item : α → Except Halt (κ × Ty × UInt32)}
    {item' : α → Option (κ × Ty × Nat)} (hitem : ∀ x, Agrees itemView (item x) (item' x))
    (x : α) {used : List (κ × Int32) × UInt32} (hused : used.2.toNat < offsetLimit) :
    Agrees placesView (placeNext item used x) (item' x >>= placeNext? (placesView used)) := by
  refine (hitem x).bind fun i _ => ?_
  have hplace : placeNext? (placesView used) (itemView i) =
      ((place? used.2.toNat i.2.1 i.2.2.toNat).map fun t : Nat => (t, -(t : Int))) >>=
        fun t => some ((i.1, t.2) :: (placesView used).1, t.1) := by
    unfold placeNext?
    change Option.map _ (place? used.2.toNat i.2.1 i.2.2.toNat) = _
    cases place? used.2.toNat i.2.1 i.2.2.toNat <;> rfl
  rw [hplace]
  exact (place_agrees hused i.2.1 i.2.2).bind fun _ _ => rfl

theorem mapM_cons_bind_foldlM {item : α → Option (κ × Ty × Nat)} (x : α) (xs : List α)
    (used : List (κ × Int) × Nat) :
    ((x :: xs).mapM item >>= fun items => items.foldlM placeNext? used) =
      (item x >>= placeNext? used) >>= fun used' =>
        xs.mapM item >>= fun items => items.foldlM placeNext? used' := by
  rw [List.mapM_cons]
  cases item x with
  | none => rfl
  | some i =>
    cases hxs : xs.mapM item with
    | none => cases hnext : placeNext? used i <;> simp [hnext]
    | some items => simp

/-- Items are placed in words as over numbers, though each size is only found when the items
before have been placed. -/
theorem placeAll_agrees {f : α → Except Halt (κ × Ty × UInt32)} {g : α → Option (κ × Ty × Nat)}
    (hitem : ∀ x, Agrees itemView (f x) (g x)) (xs : List α) (htop : top.toNat < offsetLimit) :
    Agrees placesView (placeAll f xs top)
      (xs.mapM g >>= fun items => placeAll? items top.toNat) := by
  have hfold : ∀ used : List (κ × Int32) × UInt32, used.2.toNat < offsetLimit →
      Agrees placesView (xs.foldlM (placeNext f) used)
        (xs.mapM g >>= fun items => items.foldlM placeNext? (placesView used)) := by
    induction xs with
    | nil => exact fun used _ => rfl
    | cons x xs ih =>
      intro used hused
      rw [mapM_cons_bind_foldlM, List.foldlM_cons]
      refine (placeNext_agrees hitem x hused).bind fun used' hused' => ih used' ?_
      obtain ⟨i, -, hnext⟩ := Option.bind_eq_some_iff.mp hused'
      exact lt_of_placeNext? hnext
  simp only [placeAll?_eq_foldlM]
  exact hfold ([], top) htop

theorem locals_agree (locals : List Variable) : Agrees placesView
    (placeAll (fun v => do return (v.name, v.ty, ← variableSize v)) locals 0)
    (locals.mapM (fun v => do return (v.name, v.ty, ← v.size?)) >>= fun items =>
      placeAll? items 0) := by
  refine placeAll_agrees (fun v => ?_) locals (by decide)
  exact (variableSize_agrees v).bind (f := fun size => pure (v.name, v.ty, size))
    (g := fun size => pure (v.name, v.ty, size)) fun _ _ => rfl

theorem temps_agree (temps : List (Nat × Ty)) (htop : top.toNat < offsetLimit) :
    Agrees placesView (placeAll (fun (n, ty) => pure (n, ty, .ofNat ty.size)) temps top)
      (placeAll? (temps.map fun (n, ty) => (n, ty, ty.size)) top.toNat) := by
  have hplaces := placeAll_agrees (f := fun (n, ty) => pure (n, ty, .ofNat ty.size))
    (g := fun (n, ty) => pure (n, ty, ty.size)) (fun temp => ?_) temps htop
  · rwa [List.mapM_pure] at hplaces
  · obtain ⟨n, ty⟩ := temp
    have hitem := agrees_pure itemView (n, ty, ofNat ty.size)
    rwa [itemView, toNat_size] at hitem

/-- The layout in words is the one over numbers, and has no result only where a check fails:
no other operation drops a part of its result. -/
theorem layout_eq (locals : List Variable) (temps : List (Nat × Ty)) :
    (layout locals temps).map toFrame =
      (layout? locals temps).elim (.error .tooLarge) .ok := by
  have hassoc : layout? locals temps =
      (locals.mapM (fun v => do return (v.name, v.ty, ← v.size?)) >>= fun items =>
        placeAll? items 0) >>= fun used =>
          placeAll? (temps.map fun (n, ty) => (n, ty, ty.size)) used.2 >>= fun used' =>
            if Frame.align used'.2 < offsetLimit then
              some ⟨used.1, used'.1, Frame.align used'.2⟩ else none := by
    rw [bind_assoc]
    rfl
  rw [hassoc]
  refine (locals_agree locals).bind fun used hused => ?_
  have htop : used.2.toNat < offsetLimit := by
    obtain ⟨items, -, hplaces⟩ := Option.bind_eq_some_iff.mp hused
    exact lt_of_placeAll? hplaces (by decide)
  refine (temps_agree temps htop).bind fun used' hused' => ?_
  obtain ⟨size, hsize, hvalue⟩ := align_eq (lt_of_placeAll? hused' htop)
  change Agrees toFrame (align used'.2 >>= fun size => signed size >>= fun _ =>
    pure ⟨used.1, used'.1, size⟩) (if Frame.align used'.2.toNat < offsetLimit then _ else none)
  rw [hsize, ← hvalue]
  change Agrees toFrame (signed size >>= fun _ => pure ⟨used.1, used'.1, size⟩) _
  by_cases hfits : size.toNat < offsetLimit
  · rw [if_pos hfits, signed, if_pos hfits]
    change ok _ = ok _
    rw [toFrame, hvalue]
    rfl
  · rw [if_neg hfits, signed, if_neg hfits]
    rfl

end Agreement

end WordFrame

end BlockLang
