import BlockLang.Proofs.Frame
import Mathlib.Algebra.Order.BigOperators.GroupWithZero.List

/-!
# Layout over unbounded numbers

Sizes are found if they fit, so a frame is laid out exactly when the unbounded layout of its
variables and temporaries, in whole words, stays below the limit for offsets. Then everything
lies where the unbounded layout puts it.
-/

namespace BlockLang

open List

variable {f : Frame} {temps : List (Nat × Ty)} {locals : List Variable} {κ κ' : Type}

/-- The number of bytes of a variable, of any size. -/
def Variable.bytes (v : Variable) : Nat := v.ty.size * v.extents.prod

/-- A variable that holds values, in a positive number. -/
@[mk_iff]
structure Variable.IsProper (v : Variable) : Prop where
  ty : v.ty ≠ .nothing
  extents : ∀ n ∈ v.extents, 1 ≤ n

theorem Ty.one_le_size {ty : Ty} (h : ty ≠ .nothing) : 1 ≤ ty.size := by
  cases ty with
  | int => decide
  | char => decide
  | nothing => exact absurd rfl h

namespace Variable

/-- The product of positive extents is found if it stays below the limit for words: the
products on the way are no larger. -/
private theorem foldlM_extents (ns : List Nat) (hns : ∀ n ∈ ns, 1 ≤ n) (size : Nat)
    (hsize : 1 ≤ size) (hword : size < wordLimit) : ns.foldlM (fun size n =>
        if n < wordLimit ∧ size * n < wordLimit then some (size * n) else none) size =
      if size * ns.prod < wordLimit then some (size * ns.prod) else none := by
  induction ns generalizing size with
  | nil => simp [hword]
  | cons n ns ih =>
    have hn : 1 ≤ n := hns n mem_cons_self
    have hmore : ∀ m ∈ ns, 1 ≤ m := fun m hm => hns m (mem_cons_of_mem _ hm)
    have hn_le : n ≤ size * n := Nat.le_mul_of_pos_left n hsize
    have hprod_le : size * n ≤ size * n * ns.prod :=
      Nat.le_mul_of_pos_right _ (prod_pos hmore)
    rw [foldlM_cons, prod_cons, ← Nat.mul_assoc]
    by_cases hfits : size * n < wordLimit
    · rw [if_pos ⟨by omega, hfits⟩]
      exact ih hmore (size * n) (by omega) hfits
    · rw [if_neg (by omega), if_neg (by omega)]
      rfl

/-- A variable has a size if its bytes stay below the limit for offsets. -/
theorem size?_eq {v : Variable} (h : v.IsProper) :
    v.size? = if v.bytes < offsetLimit then some v.bytes else none := by
  have hlimit : offsetLimit < wordLimit := by decide
  have hword : v.ty.size < wordLimit := by cases v.ty <;> decide
  have hfold := foldlM_extents v.extents h.extents v.ty.size (Ty.one_le_size h.ty) hword
  unfold size? bytes
  rw [hfold]
  by_cases hfits : v.ty.size * v.extents.prod < wordLimit
  · rw [if_pos hfits]
    rfl
  · rw [if_neg hfits, if_neg (by omega)]
    rfl

end Variable

namespace Frame

section Items

variable {κ : Type}

theorem offsets_map_key (g : κ → κ') (top : Nat) (items : List (κ × Ty × Nat)) :
    offsets top (items.map fun item => (g item.1, item.2)) =
      (offsets top items).map (Prod.map g id) := by
  induction items generalizing top with
  | nil => rfl
  | cons item items ih =>
    have hbelow : below top (g item.1, item.2) = below top item := rfl
    simp [offsets, ih, hbelow]

theorem lookup_map_of_injective [DecidableEq κ] [DecidableEq κ'] {g : κ → κ'} (hg : g.Injective)
    (placed : List (κ × Int)) (key : κ) :
    (placed.map (Prod.map g id)).lookup (g key) = placed.lookup key := by
  induction placed with
  | nil => rfl
  | cons item placed ih =>
    have hkey : (g key == g item.1) = (key == item.1) := by simp [hg.eq_iff]
    obtain ⟨k, offset⟩ := item
    rw [map_cons, Prod.map_apply, lookup_cons, lookup_cons, hkey, ih]
    rfl

theorem lookup_map_of_forall_ne [DecidableEq κ'] {g : κ → κ'} {key : κ'} (hg : ∀ k, key ≠ g k)
    (placed : List (κ × Int)) : (placed.map (Prod.map g id)).lookup key = none := by
  rw [lookup_eq_none_iff]
  intro item hitem
  obtain ⟨⟨k, offset⟩, -, rfl⟩ := mem_map.mp hitem
  exact bne_iff_ne.mpr (hg k)

/-- An item lies where the bytes in use end after it, unless a later one has its key. -/
theorem lookup_offsets [BEq κ] [LawfulBEq κ] (top : Nat) (before after : List (κ × Ty × Nat))
    (item : κ × Ty × Nat) (hkey : item.1 ∉ after.map Prod.fst) :
    (offsets top (before ++ item :: after)).lookup item.1 =
      some (-(depth top (before ++ [item]) : Int)) := by
  induction before generalizing top with
  | nil =>
    have hnone : (offsets (below top item) after).lookup item.1 = none := by
      rwa [← Option.not_isSome_iff_eq_none, lookup_offsets_isSome_iff]
    rw [nil_append, offsets, lookup_append, hnone]
    simp [depth]
  | cons other before ih =>
    rw [cons_append, offsets, lookup_append, ih]
    rfl

end Items

/-! ### Frames -/

/-- What has a place in a frame. -/
inductive Slot
  | named (x : String)
  | temp (number : Nat)
  deriving DecidableEq

def variableItem (v : Variable) : String × Ty × Nat := (v.name, v.ty, v.bytes)

/-- All that is placed in a frame, in order: variables, then temporaries. -/
def items (locals : List Variable) (temps : List (Nat × Ty)) : List (Slot × Ty × Nat) :=
  locals.map (fun v => (.named v.name, v.ty, v.bytes)) ++
    temps.map fun temp => (.temp temp.1, temp.2, temp.2.size)

/-- The whole words of a frame, in bytes, over unbounded numbers. -/
def total (locals : List Variable) (temps : List (Nat × Ty)) : Nat :=
  word * (depth 0 (items locals temps) ⌈/⌉ word)

def offset? (f : Frame) : Slot → Option Int
  | .named x => f.variableOffset? x
  | .temp n => f.tempOffset? n

theorem depth_map_key (g : κ → κ') (top : Nat) (items : List (κ × Ty × Nat)) :
    depth top (items.map fun item => (g item.1, item.2)) = depth top items := by
  unfold depth
  rw [foldl_map]
  rfl

theorem items_eq_append (locals : List Variable) (temps : List (Nat × Ty)) :
    items locals temps =
      (locals.map variableItem).map (fun item => (Slot.named item.1, item.2)) ++
        (temps.map tempItem).map (fun item => (Slot.temp item.1, item.2)) := by
  rw [map_map, map_map]
  rfl

/-- Sizes are found if no variable is too large. -/
theorem mapM_size?_eq (h : ∀ v ∈ locals, v.IsProper) :
    locals.mapM (fun v => do return (v.name, v.ty, ← v.size?)) =
      if ∀ v ∈ locals, v.bytes < offsetLimit then some (locals.map variableItem) else none := by
  induction locals with
  | nil => simp
  | cons v vs ih =>
    obtain ⟨hv, hvs⟩ := forall_mem_cons.mp h
    rw [mapM_cons, ih hvs, Variable.size?_eq hv]
    simp only [forall_mem_cons]
    by_cases hfits : v.bytes < offsetLimit
    · by_cases hmore : ∀ w ∈ vs, w.bytes < offsetLimit
      · rw [if_pos hfits, if_pos hmore, if_pos ⟨hfits, hmore⟩]
        rfl
      · rw [if_pos hfits, if_neg hmore, if_neg fun hall => hmore hall.2]
        rfl
    · rw [if_neg hfits, if_neg (c := v.bytes < offsetLimit ∧ _) fun hall => hfits hall.1]
      rfl

/-- Each item is among the bytes in use after all of them. -/
theorem size_le_depth {items : List (κ × Ty × Nat)} {item : κ × Ty × Nat} (h : item ∈ items)
    (top : Nat) : item.2.2 ≤ depth top items := by
  obtain ⟨before, after, rfl⟩ := mem_iff_append.mp h
  rw [depth_append, depth_cons]
  have hitem := le_below (depth top before) item
  have hrest := le_depth (below (depth top before) item) after
  omega

/-- A frame is laid out exactly if its whole words stay below the limit, and then it is the
unbounded layout. -/
theorem layout?_eq (h : ∀ v ∈ locals, v.IsProper) (temps : List (Nat × Ty)) : layout? locals temps =
      if total locals temps < offsetLimit then
        some ⟨offsets 0 (locals.map variableItem),
          offsets (depth 0 (locals.map variableItem)) (temps.map tempItem), total locals temps⟩
      else none := by
  have hle := le_align (depth (depth 0 (locals.map variableItem)) (temps.map tempItem))
  have htemps := le_depth (depth 0 (locals.map variableItem)) (temps.map tempItem)
  rw [total, word_mul_ceilDiv, items_eq_append, depth_append, depth_map_key, depth_map_key]
  refine Option.ext fun f => ?_
  rw [layout?_eq_some_iff, mapM_size?_eq h]
  constructor
  · rintro ⟨sized, hsized, hlt, rfl⟩
    obtain ⟨-, heq⟩ := Option.ite_none_right_eq_some.mp hsized
    cases heq
    exact if_pos hlt
  · intro hf
    obtain ⟨hlt, heq⟩ := Option.ite_none_right_eq_some.mp hf
    cases heq
    -- No variable alone takes more than all of them.
    have hfits : ∀ v ∈ locals, v.bytes < offsetLimit := fun v hv => by
      have hsize := size_le_depth (mem_map_of_mem hv : variableItem v ∈ locals.map variableItem) 0
      exact Nat.lt_of_le_of_lt hsize (by omega)
    exact ⟨_, if_pos hfits, hlt, rfl⟩

/-- A frame has the offsets of the unbounded layout. -/
theorem offset?_eq_lookup (hproper : ∀ v ∈ locals, v.IsProper) (h : layout? locals temps = some f)
    (key : Slot) : f.offset? key = (offsets 0 (items locals temps)).lookup key := by
  rw [layout?_eq hproper] at h
  obtain ⟨-, hf⟩ := Option.ite_none_right_eq_some.mp h
  cases hf
  rw [items_eq_append, offsets_append, offsets_map_key, offsets_map_key, depth_map_key,
    lookup_append]
  cases key with
  | named x =>
    have hne : ∀ n, Slot.named x ≠ .temp n := by simp
    rw [lookup_map_of_forall_ne hne, lookup_map_of_injective fun _ _ => Slot.named.inj]
    rfl
  | temp n =>
    have hne : ∀ x, Slot.temp n ≠ .named x := by simp
    rw [lookup_map_of_forall_ne hne, lookup_map_of_injective fun _ _ => Slot.temp.inj,
      Option.or_none]
    rfl

/-- Everything lies where the bytes in use end after it. -/
theorem offset?_eq_depth (hproper : ∀ v ∈ locals, v.IsProper) (h : layout? locals temps = some f)
    (hnodup : ((items locals temps).map Prod.fst).Nodup) {before after : List (Slot × Ty × Nat)}
    {item : Slot × Ty × Nat} (hsplit : items locals temps = before ++ item :: after) :
    f.offset? item.1 = some (-(depth 0 (before ++ [item]) : Int)) := by
  rw [hsplit, map_append, map_cons] at hnodup
  have hkey : item.1 ∉ after.map Prod.fst :=
    (nodup_cons.mp (nodup_append.mp hnodup).2.1).1
  rw [offset?_eq_lookup hproper h, hsplit]
  exact lookup_offsets 0 before after item hkey

end Frame

end BlockLang
