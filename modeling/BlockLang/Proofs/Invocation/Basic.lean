import BlockLang.Proofs.AccessLinks
import BlockLang.Proofs.Program.Call
import BlockLang.Proofs.Program.Layout
import BlockLang.Proofs.Program.Placement

/-!
# Frames on the stack

The functions that have been called and have not returned have their frames on the stack. At the
base of a frame stand the base of the caller, the line to return to and the link, above these the
arguments, below them the variables and the temporaries. The words at the bases and the addresses
that were passed are kept as long as only variables, temporaries, arguments that are values and
what does not belong to the stack are written to.
-/

namespace BlockLang

open List Option

/-- The frames that the links in memory lead to, from a base on. -/
def Store.frames (s : Store) (base : Word) : Nat → Word
  | 0 => base
  | k + 1 => s.read .int (s.frames base k + 8)

theorem Store.frames_succ (s : Store) (base : Word) (k : Nat) :
    s.frames base (k + 1) = s.frames (s.read .int (base + 8)) k := by
  induction k with
  | zero => rfl
  | succ k ih => rw [frames, ih, frames]

/-- A program that is started: where it has been loaded, and the processor at its start. -/
structure Launch where
  image : Image
  start : Processor

namespace Launch

variable (l : Launch)

/-- What lies from here on does not belong to the program. -/
def limit : Nat := (l.start.registers .esp).number

/-- Where the frames begin, below the four registers that are saved at the start. -/
def top : Nat := l.limit - 16

/-- The base in which the program is called. -/
def outer : Word := l.start.registers .esp - 4

end Launch

/-- A call that has not returned: its activation and the line after the call. -/
structure Invocation extends Activation where
  back : Nat

namespace Invocation

def arity (a : Invocation) : Nat := a.function.function.parameters.length

/-- The bytes of the frame: the variables and the temporaries, the words at the base, and the
arguments. -/
def Extent (a : Invocation) : Set Word :=
  {b | a.base.number ≤ b.number + a.function.frame.size ∧
    b.number < a.base.number + 12 + 4 * a.arity}

/-- The bytes of variables, temporaries and arguments that are values. -/
def Owns (a : Invocation) : Set Word :=
  {b | b ∈ a.Extent ∧ (b.number < a.base.number ∨ ∃ (i : Nat) (q : Parameter),
    a.function.function.parameters[i]? = some q ∧ q.byReference = false ∧
      a.base.number + (12 + 4 * i) ≤ b.number ∧ b.number < a.base.number + (12 + 4 * i) + 4)}

/-- The number of the lowest address that frames use. -/
def bottom (l : Launch) : List Invocation → Nat
  | [] => l.top
  | a :: _ => a.base.number - a.function.frame.size

/-- The base of the frame on top. -/
def frameBase (l : Launch) : List Invocation → Word
  | [] => l.outer
  | a :: _ => a.base

end Invocation

/-- The memory that a program may write to: what its invocations own, and what is no stack. -/
def Launch.Data (l : Launch) (stack : List Invocation) : Set Word :=
  {b | b.number < l.image.floor ∨ l.limit ≤ b.number ∨ ∃ a ∈ stack, b ∈ a.Owns}

namespace Invocation

/-! ### Addresses that were given by subscripts -/

/-- The arguments of the call in front of a line of the running function. -/
def Gives : List Invocation → Nat → List Argument → Prop
  | [], _, _ => False
  | a :: _, back, as => ∃ j first g scope destination,
      a.function.CallsFrom first g scope as destination ∧
      j = first + (as.length + destination.toList.length) ∧
      a.function.line j < back ∧ back ≤ a.function.line (j + 1)

/-- The address of an operand of the running function was given by a subscript: it is a cell
of an array, or a parameter for which such an address was passed. -/
inductive Subscripted : List Invocation → Operand → Prop
  | cell (stack : List Invocation) (n : Nat) : Subscripted stack (.cell n)
  | passed {a c : Invocation} {rest newer older : List Invocation} {x : String} {q : Parameter}
      {scope : Int} {i : Nat} {as : List Argument} {y : Argument}
      (hx : a.function.opened.env.find? x = some ⟨.param q, scope⟩) (href : q.byReference)
      (hstack : a :: rest = newer ++ c :: older)
      (hlinks : Activation.follow? ((a :: rest).map toActivation)
        (a.function.opened.env.scope - scope).toNat a.base = some c.base)
      (hi : c.function.function.parameters.findIdx? (fun q => q.name = x) = some i)
      (hgives : Gives older c.back as) (hy : as[i]? = some y)
      (hsubscripted : Subscripted older y.value) : Subscripted (a :: rest) (.name x)

/-! ### Frames -/

/-- A frame lies below others, with three words at its base. The addresses that were passed
for scalars are those of data, unless they were given by subscripts. -/
structure Framed (l : Launch) (s : Store) (a : Invocation) (rest : List Invocation) : Prop where
  room : l.image.floor + a.function.frame.size ≤ a.base.number
  height : a.base.number + 12 + 4 * a.arity = bottom l rest
  caller : s.read .int a.base = frameBase l rest
  back : s.read .int (a.base + 4) = l.image.code a.back
  link : s.read .int (a.base + 8) = a.link
  references : ∀ i q, a.function.function.parameters[i]? = some q → q.byReference →
    (Declaration.param q).IsScalar →
    (∀ as y, Gives rest a.back as → as[i]? = some y → ¬ Subscripted rest y.value) →
    (s.read .int (a.base + .ofNat (12 + 4 * i))).bytes q.ty.width ⊆ l.Data rest

/-- The word at an offset from the base of a frame is no data: it is one of the three at the
base, or an address that was passed. -/
def Retains (a : Invocation) (n : Nat) : Prop :=
  n ≤ 8 ∨ ∃ (i : Nat) (q : Parameter), a.function.function.parameters[i]? = some q ∧
    q.byReference ∧ n = 12 + 4 * i

/-- Frames lie one below the other. -/
def Intact (l : Launch) (s : Store) : List Invocation → Prop
  | [] => True
  | a :: rest => Framed l s a rest ∧ Intact l s rest

variable {l : Launch} {s s' : Store} {a c : Invocation} {rest stack : List Invocation} {b : Word}

theorem Framed.bottom_le (h : Framed l s a rest) : bottom l (a :: rest) ≤ bottom l rest := by
  have := h.height
  rw [bottom]
  omega

theorem Retains.le {n : Nat} (h : a.Retains n) : n + 4 ≤ 12 + 4 * a.arity := by
  obtain hsmall | ⟨i, q, hq, -, rfl⟩ := h
  · omega
  · have : i < a.arity := (List.getElem?_eq_some_iff.mp hq).1
    omega

theorem data_subset (l : Launch) (newer older : List Invocation) :
    l.Data older ⊆ l.Data (newer ++ older) := by
  rintro b (hfloor | hlimit | ⟨c, hc, howns⟩)
  · exact .inl hfloor
  · exact .inr (.inl hlimit)
  · exact .inr (.inr ⟨c, mem_append_right _ hc, howns⟩)

namespace Intact

theorem bottom_le_top (h : Intact l s stack) : bottom l stack ≤ l.top := by
  induction stack with
  | nil => exact le_rfl
  | cons a rest ih => exact h.1.bottom_le.trans (ih h.2)

/-- Frames lie above the lowest address. -/
theorem bottom_le (h : Intact l s stack) (hc : c ∈ stack) (hb : b ∈ c.Extent) :
    bottom l stack ≤ b.number := by
  induction stack with
  | nil => cases hc
  | cons a rest ih =>
    rcases mem_cons.mp hc with rfl | hc
    · have := hb.1
      rw [bottom]
      omega
    · exact h.1.bottom_le.trans (ih h.2 hc)

/-- Older frames are intact on their own. -/
theorem older {newer older : List Invocation} (h : Intact l s (newer ++ c :: older)) :
    Intact l s (c :: older) := by
  induction newer with
  | nil => exact h
  | cons _ newer ih => exact ih h.2

theorem framed (h : Intact l s stack) (hc : c ∈ stack) : ∃ older, Framed l s c older ∧
    bottom l older ≤ l.top := by
  obtain ⟨newer, older, rfl⟩ := append_of_mem hc
  exact ⟨older, h.older.1, h.older.2.bottom_le_top⟩

/-- The words at the base of the lowest frame and the addresses that were passed are no
data. -/
theorem notMem_data (h : Intact l s (a :: rest)) {n : Nat} (hn : a.Retains n)
    (hle : a.base.number + n ≤ b.number) (hlt : b.number < a.base.number + n + 4) :
    b ∉ l.Data (a :: rest) := by
  have hroom := h.1.room
  have hheight := h.1.height
  have htop := h.2.bottom_le_top
  have hspan := hn.le
  rintro (hfloor | hlimit | ⟨c, hc, hextent, howned⟩)
  · omega
  · have : l.top ≤ l.limit := Nat.sub_le _ _
    omega
  rcases mem_cons.mp hc with rfl | hc
  · obtain hbelow | ⟨j, q, hq, hvalue, hle', hlt'⟩ := howned
    · omega
    · obtain hsmall | ⟨i, q', hq', href, rfl⟩ := hn
      · omega
      · -- the bytes of two arguments are different
        obtain rfl : i = j := by omega
        cases hq.symm.trans hq'
        rw [hvalue] at href
        cases href
  · have := h.2.bottom_le hc hextent
    omega

/-- What is no data in the lowest frame is kept with the memory that is no data. -/
theorem read_congr (h : Intact l s (a :: rest))
    (heq : ∀ b, b ∉ l.Data (a :: rest) → bottom l (a :: rest) ≤ b.number → s' b = s b) {n : Nat}
    (hn : a.Retains n) : s'.read .int (a.base + .ofNat n) = s.read .int (a.base + .ofNat n) := by
  have hheight := h.1.height
  have htop := h.2.bottom_le_top
  have hlt : l.limit < 2 ^ 32 := Word.number_lt _
  have hle : l.top ≤ l.limit := Nat.sub_le _ _
  have hspan := hn.le
  have hnumber : (a.base + .ofNat n).number = a.base.number + n :=
    Word.number_add (by omega)
  refine Store.read_congr fun b hb => ?_
  have hwidth : Ty.int.width = 4 := rfl
  rw [hwidth, Word.mem_bytes (by omega)] at hb
  refine heq b (h.notMem_data hn (by omega) (by omega)) ?_
  rw [bottom]
  omega

/-- Writing data, or below all frames, keeps frames intact. -/
theorem congr (h : Intact l s stack)
    (heq : ∀ b, b ∉ l.Data stack → bottom l stack ≤ b.number → s' b = s b) :
    Intact l s' stack := by
  induction stack with
  | nil => trivial
  | cons a rest ih =>
    have hheight := h.1.height
    refine ⟨⟨h.1.room, hheight, ?_, ?_, ?_, ?_⟩, ih h.2 fun b hb hle => heq b ?_ ?_⟩
    · have hread := h.read_congr heq (.inl (Nat.zero_le 8))
      have hzero : a.base + .ofNat 0 = a.base := Int32.add_zero _
      rw [hzero] at hread
      rw [hread, h.1.caller]
    · exact (h.read_congr heq (.inl (show 4 ≤ 8 by decide))).trans h.1.back
    · exact (h.read_congr heq (.inl le_rfl)).trans h.1.link
    · intro i q hq href hscalar hexact
      rw [h.read_congr heq (.inr ⟨i, q, hq, href, rfl⟩)]
      exact h.1.references i q hq href hscalar hexact
    · -- the lowest frame lies below all the others
      rintro (hfloor | hlimit | ⟨c, hc, howns⟩)
      · exact hb (.inl hfloor)
      · exact hb (.inr (.inl hlimit))
      · rcases mem_cons.mp hc with rfl | hc
        · have := howns.1.2
          omega
        · exact hb (.inr (.inr ⟨c, hc, howns⟩))
    · exact h.1.bottom_le.trans hle

/-! ### Links -/

theorem link (h : Intact l s stack) (hc : c ∈ stack) : s.read .int (c.base + 8) = c.link := by
  obtain ⟨older, hframed, -⟩ := h.framed hc
  exact hframed.link

/-- Links in memory lead where those of the activations do. -/
theorem frames_eq (h : Intact l s stack) {k : Nat} {base target : Word}
    (hfollow : Activation.follow? (stack.map toActivation) k base = some target) :
    s.frames base k = target := by
  induction k generalizing base with
  | zero => exact some.inj hfollow
  | succ k ih =>
    obtain ⟨link, hlink, hrest⟩ := bind_eq_some_iff.mp hfollow
    obtain ⟨found, hfound, rfl⟩ := map_eq_some_iff.mp hlink
    obtain ⟨c, hc, rfl⟩ := mem_map.mp (mem_of_find?_eq_some hfound)
    have hbase : c.base = base := of_decide_eq_true (find?_some hfound :)
    rw [Store.frames_succ, ← hbase, h.link hc]
    exact ih hrest

end Intact

end Invocation

end BlockLang
