import BlockLang.Proofs.Processor.Basic

/-!
# Words on the stack

A word is written as four bytes and read back as the same word, and what is written does
not change other bytes. The stack grows to lower addresses, so words that are pushed lie one
below the other and leave alone all memory from the former top on, and below the floor.
-/

namespace BlockLang

open List Ty Word

/-! ### Numbers of addresses -/

namespace Word

variable {a b : Word} {n : Nat}

theorem number_lt (a : Word) : a.number < 2 ^ 32 := a.toBitVec.isLt

theorem number_inj : a.number = b.number ↔ a = b :=
  BitVec.toNat_inj.trans Int32.toBitVec_inj

theorem number_add_mod (a : Word) (n : Nat) :
    (a + .ofNat n).number = (a.number + n) % 2 ^ 32 := by
  change (a.toBitVec + BitVec.ofNat 32 n).toNat = (a.toBitVec.toNat + n) % 2 ^ 32
  rw [BitVec.toNat_add, BitVec.toNat_ofNat, Nat.add_mod_mod]

theorem number_add (h : a.number + n < 2 ^ 32) : (a + .ofNat n).number = a.number + n := by
  rw [number_add_mod, Nat.mod_eq_of_lt h]

theorem number_sub (h : n ≤ a.number) : (a - .ofNat n).number = a.number - n := by
  have hlt := a.number_lt
  have hword : (a - .ofNat n).number + n < 2 ^ 32 + n := by
    have := (a - .ofNat n).number_lt
    omega
  have hsum : ((a - .ofNat n).number + n) % 2 ^ 32 = a.number := by
    rw [← number_add_mod, Int32.sub_add_cancel]
  omega

/-- So many bytes from an address on. -/
def bytes (a : Word) (n : Nat) : Set Word := {b | ∃ k < n, b = a + .ofNat k}

/-- The bytes from an address on have the next numbers, as long as these do not wrap
around. -/
theorem mem_bytes (h : a.number + n ≤ 2 ^ 32) :
    b ∈ a.bytes n ↔ a.number ≤ b.number ∧ b.number < a.number + n := by
  constructor
  · rintro ⟨k, hk, rfl⟩
    rw [number_add (by omega)]
    omega
  · rintro ⟨hle, hlt⟩
    refine ⟨b.number - a.number, by omega, ?_⟩
    rw [← number_inj, number_add (by omega)]
    omega

end Word

/-! ### Memory -/

/-- The number of bytes that a value is written to. -/
def Ty.width (ty : Ty) : Nat := if ty = .char then 1 else 4

theorem Ty.width_eq_size {ty : Ty} (h : ty ≠ .nothing) : ty.width = ty.size := by
  cases ty with
  | nothing => exact absurd rfl h
  | _ => rfl

theorem Ty.width_le (ty : Ty) : ty.width ≤ 4 := by
  cases ty <;> decide

namespace Store

variable {s s' : Store} {ty : Ty} {a b w : Word}

/-- Only the bytes of the cell change. -/
theorem write_of_notMem (h : b ∉ a.bytes ty.width) : s.write ty a w b = s b := by
  have hne : ∀ k < ty.width, b ≠ a + .ofNat k := fun k hk heq => h ⟨k, hk, heq⟩
  have hzero : b ≠ a := by
    have := hne 0 (by unfold width; split <;> omega)
    rwa [show (Int32.ofNat 0) = 0 from rfl, Int32.add_zero] at this
  unfold write
  rw [if_neg hzero]
  split
  · rfl
  · rename_i hchar
    have hwidth : ty.width = 4 := if_neg hchar
    have hone : b ≠ a + 1 := hne 1 (by omega)
    have htwo : b ≠ a + 2 := hne 2 (by omega)
    have hthree : b ≠ a + 3 := hne 3 (by omega)
    rw [if_neg hone, if_neg htwo, if_neg hthree]

theorem read_congr (h : Set.EqOn s' s (a.bytes ty.width)) : s'.read ty a = s.read ty a := by
  have hbyte : ∀ k < ty.width, s' (a + .ofNat k) = s (a + .ofNat k) := fun k hk => h ⟨k, hk, rfl⟩
  have hzero : s' a = s a := by
    have := hbyte 0 (by unfold width; split <;> omega)
    rwa [show (Int32.ofNat 0) = 0 from rfl, Int32.add_zero] at this
  unfold read
  split
  · rw [hzero]
  · rename_i hchar
    have hwidth : ty.width = 4 := if_neg hchar
    have hone : s' (a + 1) = s (a + 1) := hbyte 1 (by omega)
    have htwo : s' (a + 2) = s (a + 2) := hbyte 2 (by omega)
    have hthree : s' (a + 3) = s (a + 3) := hbyte 3 (by omega)
    rw [hzero, hone, htwo, hthree]

/-- A word is put together from its bytes. -/
theorem ofBytes (w : UInt32) : (w.toUInt8.toUInt32 ||| (w >>> 8).toUInt8.toUInt32 <<< 8 |||
    (w >>> 16).toUInt8.toUInt32 <<< 16 ||| (w >>> 24).toUInt8.toUInt32 <<< 24) = w := by
  apply UInt32.toBitVec_inj.mp
  simp only [UInt32.toBitVec_or, UInt32.toBitVec_shiftLeft, UInt8.toBitVec_toUInt32,
    UInt32.toBitVec_toUInt8, UInt32.toBitVec_shiftRight]
  ext i hi
  simp
  -- the byte that a bit belongs to
  by_cases h1 : i < 8 <;> by_cases h2 : i < 16 <;> by_cases h3 : i < 24 <;> grind

theorem read_write (s : Store) (a w : Word) : (s.write .int a w).read .int a = w := by
  have hadd : ∀ k : Word, k ≠ 0 → a + k ≠ a := fun k hk h =>
    hk ((Int32.add_right_inj a).mp (h.trans (Int32.add_zero a).symm))
  have hinj : ∀ {j k : Word}, j ≠ k → a + j ≠ a + k := fun hjk h =>
    hjk ((Int32.add_right_inj a).mp h)
  have hzero : s.write .int a w a = w.toUInt32.toUInt8 := by simp [write]
  have hone : s.write .int a w (a + 1) = (w.toUInt32 >>> 8).toUInt8 := by
    simp [write, hadd 1 (by decide)]
  have htwo : s.write .int a w (a + 2) = (w.toUInt32 >>> 16).toUInt8 := by
    simp [write, hadd 2 (by decide), hinj (show (2 : Word) ≠ 1 by decide)]
  have hthree : s.write .int a w (a + 3) = (w.toUInt32 >>> 24).toUInt8 := by
    simp [write, hadd 3 (by decide), hinj (show (3 : Word) ≠ 1 by decide),
      hinj (show (3 : Word) ≠ 2 by decide)]
  have hint : int ≠ .char := by decide
  rw [read, if_neg hint, hzero, hone, htwo, hthree, ofBytes]
  exact Int32.toBitVec_inj.mp rfl

/-- A word below does not matter. -/
theorem read_write_above (h : a.number + 4 ≤ b.number) (hfits : b.number + 4 ≤ 2 ^ 32) :
    (s.write .int a w).read .int b = s.read .int b := by
  have hwidth : int.width = 4 := rfl
  refine read_congr fun c hc => write_of_notMem fun hmem => ?_
  rw [hwidth, mem_bytes (by omega)] at hc hmem
  omega

/-! ### Words that lie one above the other -/

/-- Words lie one above the other from an address on. -/
def Piles (s : Store) : Word → List Word → Prop
  | _, [] => True
  | a, w :: ws => s.read .int a = w ∧ Piles s (a + 4) ws

theorem Piles.congr {ws : List Word} (h : s.Piles a ws) (hfits : a.number + 4 * ws.length ≤ 2 ^ 32)
    (heq : Set.EqOn s' s {b | a.number ≤ b.number}) : s'.Piles a ws := by
  induction ws generalizing a with
  | nil => trivial
  | cons w ws ih =>
    rw [length_cons] at hfits
    refine ⟨(read_congr fun b hb => heq ?_).trans h.1, ?_⟩
    · exact ((mem_bytes (show a.number + int.width ≤ 2 ^ 32 by
        change a.number + 4 ≤ 2 ^ 32; omega)).mp hb).1
    · cases ws with
      | nil => trivial
      | cons w' ws =>
        rw [length_cons] at hfits
        have hnext : (a + 4).number = a.number + 4 := number_add (n := 4) (by omega)
        refine ih h.2 (by rw [hnext, length_cons]; omega) fun b hb => heq ?_
        have hb : (a + 4).number ≤ b.number := hb
        change a.number ≤ b.number
        omega

theorem Piles.getElem? {ws : List Word} (h : s.Piles a ws) {i : Nat} (hi : ws[i]? = some w) :
    s.read .int (a + .ofNat (4 * i)) = w := by
  induction ws generalizing a i with
  | nil => cases hi
  | cons v ws ih =>
    cases i with
    | zero =>
      cases hi
      rw [Nat.mul_zero, show (Int32.ofNat 0) = 0 from rfl, Int32.add_zero]
      exact h.1
    | succ i =>
      have hword : a + .ofNat (4 * (i + 1)) = a + 4 + .ofNat (4 * i) := by
        rw [Nat.mul_succ, Nat.add_comm, Int32.ofNat_add, ← Int32.add_assoc]
        rfl
      rw [hword]
      exact ih h.2 hi

end Store

/-! ### Pushing words -/

/-- The memory that pushing below an address does not change: what lies below the floor of
the stack, and what lies from the address on. -/
def Image.Fixed (image : Image) (n : Nat) : Set Word := {b | b.number < image.floor ∨ n ≤ b.number}

namespace Processor

variable {image : Image} {σ σ1 σ2 σ' : Processor} {w : Word} {ws : List Word}

theorem push?_eq_some : σ.push? image w = some σ' ↔ image.floor + 4 ≤ (σ.registers .esp).number ∧
    σ' = (σ.set .esp (σ.registers .esp - 4)).withStore
      (σ.store.write .int (σ.registers .esp - 4) w) := by
  unfold push?
  dsimp only
  split
  · rename_i hroom
    simp [hroom, eq_comm]
  · rename_i hroom
    simp [hroom]

/-- Words have been pushed, the last one of the list first. -/
structure Piled (image : Image) (σ : Processor) (ws : List Word) (σ' : Processor) : Prop where
  esp : (σ'.registers .esp).number + 4 * ws.length = (σ.registers .esp).number
  ebp : σ'.registers .ebp = σ.registers .ebp
  floor : image.floor ≤ (σ.registers .esp).number → image.floor ≤ (σ'.registers .esp).number
  store : Set.EqOn σ'.store σ.store (image.Fixed (σ.registers .esp).number)
  piles : σ'.store.Piles (σ'.registers .esp) ws

namespace Piled

theorem refl (image : Image) (σ : Processor) : Piled image σ [] σ :=
  ⟨rfl, rfl, id, Set.eqOn_refl _ _, trivial⟩

/-- What is done in other registers does not matter. -/
theorem keeps (h : Piled image σ ws σ1) {rs : List Register} (hkeeps : σ1.Keeps rs σ2)
    (hesp : .esp ∉ rs) (hebp : .ebp ∉ rs) : Piled image σ ws σ2 := by
  obtain ⟨esp, ebp, floor, store, piles⟩ := h
  rw [← hkeeps.registers _ hesp] at esp floor piles
  rw [← hkeeps.registers _ hebp] at ebp
  rw [← hkeeps.store] at store piles
  exact ⟨esp, ebp, floor, store, piles⟩

theorem push (h : Piled image σ ws σ1) (hpush : σ1.push? image w = some σ2) :
    Piled image σ (w :: ws) σ2 := by
  obtain ⟨hroom, rfl⟩ := push?_eq_some.mp hpush
  have hlt := (σ.registers .esp).number_lt
  have hesp := h.esp
  have htop : (σ1.registers .esp - 4).number = (σ1.registers .esp).number - 4 :=
    number_sub (n := 4) (by omega)
  -- only the four bytes below the former top change
  have hchanged : ∀ b, (b.number < image.floor ∨ (σ1.registers .esp).number ≤ b.number) →
      σ1.store.write .int (σ1.registers .esp - 4) w b = σ1.store b := by
    intro b hb
    refine Store.write_of_notMem fun hmem => ?_
    have hwidth : int.width = 4 := rfl
    rw [hwidth, mem_bytes (by omega)] at hmem
    omega
  refine ⟨?_, ?_, ?_, ?_, ?_, ?_⟩
  · rw [registers_withStore, registers_set_self, htop, length_cons]
    omega
  · rw [registers_withStore, registers_set_of_ne _ _ _ (by decide), h.ebp]
  · rw [registers_withStore, registers_set_self, htop]
    omega
  · intro b hb
    refine (hchanged b ?_).trans (h.store hb)
    rcases hb with hb | hb
    · exact .inl hb
    · exact .inr (by omega)
  · rw [registers_withStore, registers_set_self]
    exact Store.read_write ..
  · rw [registers_withStore, registers_set_self, Int32.sub_add_cancel]
    exact h.piles.congr (by omega) fun b hb => hchanged b (.inr hb)

end Piled

end Processor

end BlockLang
