import BlockLang.Proofs.Frame.Word
import Mathlib

/-!
# Frames are laid out soundly and whenever they can be

A frame is laid out exactly if the unbounded layout of its variables and temporaries fits below the
limit for offsets. Then each of them has bytes of its own, integers on word boundaries, and the
layout in words is the same.
-/

namespace BlockLang

open List Variable

namespace Frame

/-- Each item has its bytes between the end of the frame and the base, an integer starts on a
word boundary, and no two of them share a byte. -/
structure Holds (f : Frame) (items : List (Slot × Ty × Nat)) : Prop where
  inside : ∀ item ∈ items, ∃ offset, f.offset? item.1 = some offset ∧
    -(f.size : Int) ≤ offset ∧ offset + item.2.2 ≤ 0 ∧ (item.2.1 = .int → (word : Int) ∣ offset)
  disjoint : items.Pairwise fun s t => ∀ offset offset', f.offset? s.1 = some offset →
    f.offset? t.1 = some offset' →
      Disjoint (Set.Ico offset (offset + s.2.2)) (Set.Ico offset' (offset' + t.2.2))

variable {locals : List Variable} {temps : List (Nat × Ty)} {f : Frame}

theorem nodup_items (hnames : (locals.map name).Nodup)
    (hnumbers : (temps.map Prod.fst).Nodup) : ((items locals temps).map Prod.fst).Nodup := by
  have hlocals : ((locals.map name).map Slot.named).Nodup :=
    hnames.map fun _ _ => Slot.named.inj
  have htemps : ((temps.map Prod.fst).map Slot.temp).Nodup :=
    hnumbers.map fun _ _ => Slot.temp.inj
  rw [map_map] at hlocals htemps
  rw [items, map_append, map_map, map_map]
  refine nodup_append.mpr ⟨hlocals, htemps, ?_⟩
  intro a ha b hb heq
  obtain ⟨v, -, rfl⟩ := mem_map.mp ha
  obtain ⟨temp, -, rfl⟩ := mem_map.mp hb
  cases heq

/-- The items before one leave room for it. -/
theorem depth_take_succ {κ : Type} {items : List (κ × Ty × Nat)} {i : Nat}
    (hi : i < items.length) :
    depth 0 (items.take (i + 1)) = below (depth 0 (items.take i)) items[i] := by
  rw [← take_append_getElem hi, depth_append]
  rfl

theorem depth_take_le {κ : Type} (items : List (κ × Ty × Nat)) {i j : Nat} (hij : i ≤ j) :
    depth 0 (items.take i) ≤ depth 0 (items.take j) := by
  obtain ⟨rest, hrest⟩ := take_prefix_take_left hij (l := items)
  rw [← hrest, depth_append]
  exact le_depth _ _

/-- Integers take whole words. -/
theorem dvd_size_of_mem_items {item : Slot × Ty × Nat} (h : item ∈ items locals temps)
    (hint : item.2.1 = .int) : word ∣ item.2.2 := by
  rcases mem_append.mp h with h | h
  · obtain ⟨v, -, rfl⟩ := mem_map.mp h
    have hty : v.ty = .int := hint
    exact ⟨v.extents.prod, by rw [bytes, hty]; rfl⟩
  · obtain ⟨temp, -, rfl⟩ := mem_map.mp h
    have hty : temp.2 = .int := hint
    exact ⟨1, by dsimp only; rw [hty]; rfl⟩

theorem dvd_below {κ : Type} {item : κ × Ty × Nat} (top : Nat) (hint : item.2.1 = .int)
    (hsize : word ∣ item.2.2) : word ∣ below top item := by
  rw [below, if_pos hint]
  exact Nat.dvd_add (Nat.dvd_mul_right _ _) hsize

section Layout

variable (hproper : ∀ v ∈ locals, v.IsProper) (h : layout? locals temps = some f)

include hproper h

/-- An item ends where the bytes in use end after it. -/
theorem offset?_getElem (hnodup : ((items locals temps).map Prod.fst).Nodup) {i : Nat}
    (hi : i < (items locals temps).length) :
    f.offset? (items locals temps)[i].1 =
      some (-(depth 0 ((items locals temps).take (i + 1)) : Int)) := by
  have hsplit : items locals temps = (items locals temps).take i ++
      (items locals temps)[i] :: (items locals temps).drop (i + 1) := by
    rw [getElem_cons_drop, take_append_drop]
  rw [offset?_eq_depth hproper h hnodup hsplit, take_append_getElem]

theorem total_of_layout? : f.size = total locals temps ∧ total locals temps < offsetLimit := by
  rw [layout?_eq hproper] at h
  obtain ⟨hlt, hf⟩ := Option.ite_none_right_eq_some.mp h
  cases hf
  exact ⟨rfl, hlt⟩

theorem depth_take_le_size (i : Nat) : depth 0 ((items locals temps).take i) ≤ f.size := by
  have hle := depth_take_le (items locals temps) (Nat.le_max_left i (items locals temps).length)
  rw [take_of_length_le (Nat.le_max_right _ _)] at hle
  rw [(total_of_layout? hproper h).1, total, word_mul_ceilDiv]
  exact hle.trans (le_align _)

/-- Variables and temporaries have bytes of their own in a frame. -/
theorem holds_of_layout? (hnodup : ((items locals temps).map Prod.fst).Nodup) :
    f.Holds (items locals temps) where
  inside item hitem := by
    obtain ⟨i, hi, rfl⟩ := mem_iff_getElem.mp hitem
    refine ⟨_, offset?_getElem hproper h hnodup hi, ?_, ?_, fun hint => ?_⟩
    · have hle := depth_take_le_size hproper h (i + 1)
      omega
    · have hroom := le_below (depth 0 ((items locals temps).take i)) (items locals temps)[i]
      rw [depth_take_succ hi]
      omega
    · have hdvd := dvd_below (depth 0 ((items locals temps).take i)) hint
        (dvd_size_of_mem_items hitem hint)
      rw [depth_take_succ hi]
      exact Int.dvd_neg.mpr (Int.natCast_dvd_natCast.mpr hdvd)
  disjoint := by
    refine pairwise_iff_getElem.mpr fun i j hi hj hij offset offset' hoffset hoffset' => ?_
    rw [offset?_getElem hproper h hnodup hi] at hoffset
    rw [offset?_getElem hproper h hnodup hj, depth_take_succ hj] at hoffset'
    cases hoffset
    cases hoffset'
    -- The later item ends where the bytes in use before it end, or below.
    have hbefore := depth_take_le (items locals temps) (i := i + 1) hij
    have hroom := le_below (depth 0 ((items locals temps).take j)) (items locals temps)[j]
    refine Set.disjoint_left.mpr fun byte hbyte hbyte' => ?_
    obtain ⟨hlow, -⟩ := hbyte
    obtain ⟨-, hhigh⟩ := hbyte'
    omega

/-- The variables of a frame have the sizes of the unbounded layout. -/
theorem size?_of_layout? {v : Variable} (hv : v ∈ locals) : v.size? = some v.bytes := by
  have hmem : (Slot.named v.name, v.ty, v.bytes) ∈ items locals temps :=
    mem_append_left _ (mem_map_of_mem hv)
  have hle : v.bytes ≤ depth 0 (items locals temps) := size_le_depth hmem 0
  have htotal := (total_of_layout? hproper h).2
  rw [total, word_mul_ceilDiv] at htotal
  have halign := le_align (depth 0 (items locals temps))
  rw [size?_eq (hproper v hv), if_pos (by omega)]

end Layout

end Frame

/-- A frame is laid out exactly if the unbounded layout stays below the limit for offsets. Its
size is then that of the unbounded layout, each variable has its bytes, and variables and
temporaries have bytes of their own in it. In words the layout has the same result, and it
has none only because a check fails: no operation drops a part of its result. -/
theorem layout_sound_and_exact (locals : List Variable) (temps : List (Nat × Ty))
    (hnames : (locals.map Variable.name).Nodup) (hnumbers : (temps.map Prod.fst).Nodup)
    (hproper : ∀ v ∈ locals, v.IsProper) :
    ((Frame.layout? locals temps).isSome ↔ Frame.total locals temps ≤ 2 ^ 31 - 1) ∧
      (∀ f, Frame.layout? locals temps = some f → f.size = Frame.total locals temps ∧
        (∀ v ∈ locals, v.size? = some v.bytes) ∧ f.Holds (Frame.items locals temps)) ∧
      (WordFrame.layout locals temps).map WordFrame.toFrame =
        (Frame.layout? locals temps).elim (.error .tooLarge) .ok := by
  refine ⟨?_, fun f hf => ?_, WordFrame.layout_eq locals temps⟩
  · have hiff : Frame.total locals temps ≤ 2 ^ 31 - 1 ↔ Frame.total locals temps < offsetLimit := by
      unfold offsetLimit
      omega
    rw [hiff, Frame.layout?_eq hproper]
    split <;> simp [*]
  · refine ⟨(Frame.total_of_layout? hproper hf).1, fun v hv => ?_, ?_⟩
    · exact Frame.size?_of_layout? hproper hf hv
    · exact Frame.holds_of_layout? hproper hf (Frame.nodup_items hnames hnumbers)

/-- A character, an array that leaves little room, and an integer. -/
def crampedLocals : List Variable :=
  [⟨"c", .source ⟨1, 1⟩, .char, []⟩, ⟨"a", .source ⟨1, 2⟩, .char, [3, 715827876]⟩,
    ⟨"n", .source ⟨1, 3⟩, .int, []⟩]

/-- Temporaries that take what is left but for three bytes. -/
def crampedTemps : List (Nat × Ty) := [(3, .char), (0, .int)]

theorem layout_sound_and_exact_cramped :
    (crampedLocals.map Variable.name).Nodup ∧ (crampedTemps.map Prod.fst).Nodup ∧
      (∀ v ∈ crampedLocals, v.IsProper) ∧ ∃ f,
        Frame.layout? crampedLocals crampedTemps = some f ∧ f.size = 2147483644 ∧
          f.Holds (Frame.items crampedLocals crampedTemps) ∧
          (WordFrame.layout crampedLocals crampedTemps).map WordFrame.toFrame = .ok f := by
  have hnames : (crampedLocals.map Variable.name).Nodup := by decide
  have hnumbers : (crampedTemps.map Prod.fst).Nodup := by decide
  have hproper : ∀ v ∈ crampedLocals, v.IsProper := by
    simp [crampedLocals, Variable.isProper_iff]
  have htotal : Frame.total crampedLocals crampedTemps = 2147483644 := by decide +kernel
  obtain ⟨hiff, hsound, hwords⟩ :=
    layout_sound_and_exact crampedLocals crampedTemps hnames hnumbers hproper
  obtain ⟨f, hf⟩ := Option.isSome_iff_exists.mp (hiff.mpr (by rw [htotal]; decide))
  obtain ⟨hsize, -, hholds⟩ := hsound f hf
  rw [hf] at hwords
  exact ⟨hnames, hnumbers, hproper, f, hf, hsize.trans htotal, hholds, hwords⟩

end BlockLang
