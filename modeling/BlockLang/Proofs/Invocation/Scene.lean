import BlockLang.Proofs.Invocation.Place
import BlockLang.Proofs.Program.Segment

/-!
# Runs with their calls

A scene is a moment of a run together with the calls that have not returned. Between two quads a
scene is poised: the frames are intact, the base of the running frame is in `ebp`, and the top of
the stack is the end of that frame.
-/

namespace BlockLang

open CompiledFunction.Closes List Option

/-- What is stored through an address that a subscript gave is stored in data: in variables,
temporaries or values that were passed in calls that have not returned, or in memory that is
no stack. -/
def Invocation.Ranged (l : Launch) (rs : List CompiledFunction) (s : Store) (a : Invocation)
    (rest : List Invocation) (q : Quad) : Prop :=
  q.op = .assign → ∀ o ty addr, q.output = some o → Invocation.Subscripted (a :: rest) o →
    (a.function.layout rs).place? (s.frames a.base) s o = some (ty, addr) →
      addr.bytes ty.width ⊆ l.Data (a :: rest)

/-- A moment of a run, with the calls that have not returned. -/
@[ext]
structure Scene where
  stack : List Invocation
  moment : Moment

namespace Scene

/-- One line of a program. A call that pushes a return address has pushed the link before,
and the base of the caller will be saved below. -/
inductive Step (image : Image) (program : List Instruction) (rs : List CompiledFunction) :
    Scene → Scene → Prop
  | inside {stack : List Invocation} {m m' : Moment} (hstep : m.Step image program m')
      (hret : program[m.line]? ≠ some .ret)
      (hcall : ∀ t, program[m.line]? = some (.call t) → program.idxOf? (.label t) = none) :
      Step image program rs ⟨stack, m⟩ ⟨stack, m'⟩
  | enter {stack : List Invocation} {m m' : Moment} {callee : CompiledFunction}
      (hstep : m.Step image program m') (hcallee : callee ∈ rs)
      (hcall : program[m.line]? = some (.call callee.label.text)) :
      Step image program rs ⟨stack, m⟩
        ⟨⟨⟨callee, m'.processor.registers .esp - 4,
          m'.processor.store.read .int (m'.processor.registers .esp + 4)⟩, m.line + 1⟩ :: stack, m'⟩
  | leave {a : Invocation} {rest : List Invocation} {m m' : Moment}
      (hstep : m.Step image program m') (hret : program[m.line]? = some .ret) :
      Step image program rs ⟨a :: rest, m⟩ ⟨rest, m'⟩

/-- No subscript that is stored through is out of range, and a standard routine writes to
data and to the free part of the stack only. -/
structure InRange (l : Launch) (program : List Instruction) (rs : List CompiledFunction)
    (S S' : Scene) : Prop where
  stores : ∀ a rest i q, S.stack = a :: rest → S.moment.line = a.function.line i →
    a.function.line i < a.function.line (i + 1) → a.function.first ≤ i →
    a.function.closed.code.quads[i]? = some q → a.Ranged l rs S.moment.processor.store rest q
  routines : ∀ t, program[S.moment.line]? = some (.call t) → program.idxOf? (.label t) = none →
    ∀ b, b ∉ l.Data S.stack → Invocation.bottom l S.stack ≤ b.number →
      S'.moment.processor.store b = S.moment.processor.store b

/-- A run in which no subscript that is stored through is out of range. -/
def Runs (l : Launch) (program : List Instruction) (rs : List CompiledFunction) :
    Scene → Scene → Prop :=
  Relation.ReflTransGen fun S S' => Step l.image program rs S S' ∧ InRange l program rs S S'

end Scene

/-! ### Lines that have been run -/

namespace Instruction

variable {program lines : List Instruction} {start k : Nat} {image : Image} {σ σ' : Processor}

theorem Placed.take_drop (h : Placed program start lines) (hk : k ≤ lines.length) :
    (program.drop start).take k = lines.take k := by
  refine ext_getElem? fun n => ?_
  rw [getElem?_take, getElem?_take, getElem?_drop]
  split
  · rename_i hn
    have hlt : n < lines.length := hn.trans_le hk
    rw [getElem?_eq_getElem hlt, h n _ (getElem?_eq_getElem hlt)]
  · rfl

theorem straight_of_runAll? (h : σ.runAll? image lines = some σ') : Straight lines := by
  induction lines generalizing σ with
  | nil => exact forall_mem_nil _
  | cons i lines ih =>
    obtain ⟨σ1, hexec, hrest⟩ := bind_eq_some_iff.mp h
    exact forall_mem_cons.mpr ⟨isStraight_of_exec? hexec, ih hrest⟩

end Instruction

namespace Moment.Step

variable {image : Image} {program : List Instruction} {m m' : Moment} {i : Instruction}
  {t : String}

variable (h : m.Step image program m')

include h

theorem of_straight (hline : program[m.line]? = some i) (hi : i.IsStraight) :
    ∃ σ', i.exec? image m.processor = some σ' ∧ m' = ⟨m.line + 1, σ'⟩ := by
  cases h with
  | next hline' hexec =>
    cases hline.symm.trans hline'
    exact ⟨_, hexec, rfl⟩
  | jmp hline' => cases hline.symm.trans hline'; exact hi.elim
  | jcc hline' => cases hline.symm.trans hline'; exact hi.elim
  | call hline' => cases hline.symm.trans hline'; exact hi.elim
  | routine hline' => cases hline.symm.trans hline'; exact hi.elim
  | ret hline' => cases hline.symm.trans hline'; exact hi.elim

theorem of_jmp (hline : program[m.line]? = some (.jmp t)) :
    ∃ target, program.idxOf? (.label t) = some target ∧ m' = ⟨target, m.processor⟩ := by
  cases h with
  | next hline' hexec => cases hline.symm.trans hline'; cases hexec
  | jmp hline' htarget =>
    cases hline.symm.trans hline'
    exact ⟨_, htarget, rfl⟩
  | jcc hline' => cases hline.symm.trans hline'
  | call hline' => cases hline.symm.trans hline'
  | routine hline' => cases hline.symm.trans hline'
  | ret hline' => cases hline.symm.trans hline'

theorem of_jcc {relation : Relation} (hline : program[m.line]? = some (.jcc relation t)) :
    ∃ target f, program.idxOf? (.label t) = some target ∧ m.processor.flags = some f ∧
      m' = ⟨if f.holds relation then target else m.line + 1, m.processor⟩ := by
  cases h with
  | next hline' hexec => cases hline.symm.trans hline'; cases hexec
  | jmp hline' => cases hline.symm.trans hline'
  | jcc hline' hflags htarget =>
    cases hline.symm.trans hline'
    exact ⟨_, _, htarget, hflags, rfl⟩
  | call hline' => cases hline.symm.trans hline'
  | routine hline' => cases hline.symm.trans hline'
  | ret hline' => cases hline.symm.trans hline'

/-- A call pushes the address of the next line. It leads to the label, or a standard routine
is run. -/
theorem of_call (hline : program[m.line]? = some (.call t)) :
    ∃ σ1, m.processor.push? image (image.code (m.line + 1)) = some σ1 ∧
      ((∃ target, program.idxOf? (.label t) = some target ∧ m' = ⟨target, σ1⟩) ∨
        program.idxOf? (.label t) = none ∧
          ∃ σ', image.routine t σ1 σ' ∧ m' = ⟨m.line + 1, σ'⟩) := by
  cases h with
  | next hline' hexec => cases hline.symm.trans hline'; cases hexec
  | jmp hline' => cases hline.symm.trans hline'
  | jcc hline' => cases hline.symm.trans hline'
  | call hline' htarget hpush =>
    cases hline.symm.trans hline'
    exact ⟨_, hpush, .inl ⟨_, htarget, rfl⟩⟩
  | routine hline' hnone hpush hroutine =>
    cases hline.symm.trans hline'
    exact ⟨_, hpush, .inr ⟨hnone, _, hroutine, rfl⟩⟩
  | ret hline' => cases hline.symm.trans hline'

theorem of_ret (hline : program[m.line]? = some .ret) :
    ∃ target ≤ program.length,
      m.processor.store.read .int (m.processor.registers .esp) = image.code target ∧
        m' = ⟨target, m.processor.set .esp (m.processor.registers .esp + 4)⟩ := by
  cases h with
  | next hline' hexec => cases hline.symm.trans hline'; cases hexec
  | jmp hline' => cases hline.symm.trans hline'
  | jcc hline' => cases hline.symm.trans hline'
  | call hline' => cases hline.symm.trans hline'
  | routine hline' => cases hline.symm.trans hline'
  | ret _ htarget hlt => exact ⟨_, hlt, htarget, rfl⟩

end Moment.Step

namespace Scene.Step

variable {image : Image} {program : List Instruction} {rs : List CompiledFunction} {S S' : Scene}

theorem moment (h : S.Step image program rs S') : S.moment.Step image program S'.moment := by
  cases h with
  | inside hstep => exact hstep
  | enter hstep => exact hstep
  | leave hstep => exact hstep

/-- Lines that are neither a call nor a return leave the stack alone. -/
theorem stack_eq (h : S.Step image program rs S') {i : Instruction}
    (hline : program[S.moment.line]? = some i) (hcall : ∀ t, i ≠ .call t) (hret : i ≠ .ret) :
    S'.stack = S.stack := by
  cases h with
  | inside => rfl
  | enter _ _ hline' => exact absurd (some.inj (hline.symm.trans hline')) (hcall _)
  | leave _ hline' => exact absurd (some.inj (hline.symm.trans hline')) hret

end Scene.Step

namespace Processor

variable {image : Image} {program front rest lines : List Instruction} {start k : Nat}
  {σ σ1 σ2 : Processor} {i : Instruction}

/-- A number of lines of a program have been run one after the other. -/
def Ran (image : Image) (program : List Instruction) (start k : Nat) (σ σ' : Processor) : Prop :=
  σ.runAll? image ((program.drop start).take k) = some σ'

theorem ran_zero (image : Image) (program : List Instruction) (start : Nat) (σ : Processor) :
    Ran image program start 0 σ σ := rfl

theorem Ran.succ (h : Ran image program start k σ σ1) (hline : program[start + k]? = some i)
    (hexec : i.exec? image σ1 = some σ2) : Ran image program start (k + 1) σ σ2 := by
  have htake : (program.drop start).take (k + 1) = (program.drop start).take k ++ [i] := by
    rw [take_add_one, getElem?_drop, hline]
    rfl
  rw [Ran, htake]
  exact runAll?_append h ((runAll?_singleton i).trans hexec)

theorem ran_iff (h : Instruction.Placed program start lines) :
    Ran image program start lines.length σ σ1 ↔ σ.runAll? image lines = some σ1 := by
  rw [Ran, h.take_drop le_rfl, take_length]

/-- The next line is one of the straight lines in front, or all of these have been run. -/
theorem Ran.cases (h : Ran image program start k σ σ1)
    (hplaced : Instruction.Placed program start (front ++ rest))
    (hstraight : Instruction.Straight front) (hrest : ∀ x ∈ rest.head?, ¬ x.IsStraight)
    (hk : k < (front ++ rest).length) :
    (k < front.length ∧ ∃ i, program[start + k]? = some i ∧ i.IsStraight) ∨
      k = front.length ∧ σ.runAll? image front = some σ1 ∧
        ∃ i others, rest = i :: others ∧ program[start + k]? = some i := by
  by_cases hlt : k < front.length
  · refine .inl ⟨hlt, front[k], hplaced k _ ?_, hstraight _ (getElem_mem hlt)⟩
    rw [getElem?_append_left hlt, getElem?_eq_getElem hlt]
  cases rest with
  | nil =>
    rw [append_nil] at hk
    exact absurd hk hlt
  | cons i others =>
    -- the first line after those in front is not straight, so it has not been run
    have hle : k ≤ front.length := by
      by_contra hgt
      rw [Ran, hplaced.take_drop hk.le] at h
      refine hrest i rfl (Instruction.straight_of_runAll? h i ?_)
      refine mem_of_getElem? (i := front.length) ?_
      rw [getElem?_take_of_lt (by omega), getElem?_append_right le_rfl, Nat.sub_self]
      rfl
    obtain rfl : k = front.length := by omega
    exact .inr ⟨rfl, (ran_iff hplaced.left).mp h, i, others, rfl, hplaced.right.head⟩

end Processor

/-! ### Between and within quads -/

/-- After a call its words are taken from the stack and its result is stored. -/
structure CompiledFunction.Resumes (p : Progress) (r : CompiledFunction) (j words : Nat)
    (destination : Option Nat) (back : Nat) (tail : List Instruction) : Prop where
  first_lt : r.first < j
  lt_last : j < r.last
  line_lt : r.line j < back
  placed : Instruction.Placed p.assembly.program back tail
  next : r.line (j + 1) = back + tail.length
  straight : Instruction.Straight tail
  cleans : ∀ (image : Image) (base : Nat → Word),
    Lower.Cleans image base (r.path.length + 1) r.site.layout words (destination.map .temp) tail
  writable : ∀ n, destination = some n →
    (Operand.temp n).Readable r.opened.env r.closed.code r.opened.code.temps.size

namespace Invocation

/-- A call returns to the lines after it, or to the end of the program. -/
def Returned (p : Progress) (c : Invocation) : List Invocation → Prop
  | [] => c.back = 11 ∧ c.arity = 0
  | a :: _ => (∃ n, c.back = n + 1 ∧
      p.assembly.program[n]? = some (.call c.function.label.text)) ∧
      ∃ j destination tail, a.function.Resumes p j (c.arity + 1) destination c.back tail

/-- All calls return to the lines after them. -/
def Returns (p : Progress) : List Invocation → Prop
  | [] => True
  | c :: rest => Returned p c rest ∧ Returns p rest

/-- The processor runs in the frame on top, with a number of words pushed below it. -/
structure Poised (p : Progress) (l : Launch) (rs : List CompiledFunction) (words : Nat)
    (a : Invocation) (rest : List Invocation) (σ : Processor) : Prop where
  standing : Standing l rs σ.store a rest
  returns : Returns p (a :: rest)
  ebp : σ.registers .ebp = a.base
  esp : (σ.registers .esp).number + 4 * words = bottom l (a :: rest)

/-- The processor is at the start of a function that was called: its frame is not there yet. -/
structure Entered (p : Progress) (l : Launch) (rs : List CompiledFunction) (c : Invocation)
    (rest : List Invocation) (σ : Processor) : Prop where
  sound : Activation.Sound rs ((c :: rest).map toActivation)
  returns : Returns p (c :: rest)
  intact : Intact l σ.store rest
  ebp : σ.registers .ebp = frameBase l rest
  esp : σ.registers .esp = c.base + 4
  height : (σ.registers .esp).number + 8 + 4 * c.arity = bottom l rest
  back : σ.store.read .int (c.base + 4) = l.image.code c.back
  link : σ.store.read .int (c.base + 8) = c.link
  references : ∀ i q, c.function.function.parameters[i]? = some q → q.byReference →
    (Declaration.param q).IsScalar →
    (∀ as y, Gives rest c.back as → as[i]? = some y → ¬ Subscripted rest y.value) →
    (σ.store.read .int (c.base + .ofNat (12 + 4 * i))).bytes q.ty.width ⊆ l.Data rest

end Invocation

namespace Scene

open Invocation Processor

/-- The processor is at a line of the program, and the lines in front of it have been run: at
the start or the end of the program, at the start of a function, in the lines of a quad or in
the lines after a call. -/
inductive Located (p : Progress) (l : Launch) (rs : List CompiledFunction) : Scene → Prop
  | entry {k : Nat} {σ : Processor} (hk : k < 8)
      (ran : Ran l.image p.assembly.program 3 k l.start σ) : Located p l rs ⟨[], ⟨3 + k, σ⟩⟩
  | exit {k : Nat} {σ : Processor} (hk : k < 7) : Located p l rs ⟨[], ⟨11 + k, σ⟩⟩
  | head {c : Invocation} {rest : List Invocation} {k : Nat} {σ σ' : Processor}
      (entered : c.Entered p l rs rest σ) (hk : k < 4)
      (ran : Ran l.image p.assembly.program (c.function.line c.function.first) k σ σ') :
      Located p l rs ⟨c :: rest, ⟨c.function.line c.function.first + k, σ'⟩⟩
  | body {a : Invocation} {rest : List Invocation} {i k : Nat} {q : Quad} {σ σ' : Processor}
      (poised : a.Poised p l rs 0 rest σ) (hi : a.function.first < i)
      (hq : a.function.closed.code.quads[i]? = some q)
      (hk : a.function.line i + k < a.function.line (i + 1))
      (ranged : 0 < k → a.Ranged l rs σ.store rest q)
      (ran : Ran l.image p.assembly.program (a.function.line i) k σ σ') :
      Located p l rs ⟨a :: rest, ⟨a.function.line i + k, σ'⟩⟩
  | resume {a : Invocation} {rest : List Invocation} {j words back k : Nat}
      {destination : Option Nat} {tail : List Instruction} {σ σ' : Processor}
      (poised : a.Poised p l rs words rest σ)
      (resumes : a.function.Resumes p j words destination back tail) (hk : k < tail.length)
      (ran : Ran l.image p.assembly.program back k σ σ') :
      Located p l rs ⟨a :: rest, ⟨back + k, σ'⟩⟩

end Scene

section Located

open Invocation Processor Scene

variable {tree : Decl} {p : Progress} {l : Launch} {rs : List CompiledFunction} {a : Invocation}
  {rest : List Invocation} {σ : Processor} {i j n : Nat}

/-- The end of a function has lines. -/
theorem Compiles.line_last_lt (h : Compiles tree p rs) {r : CompiledFunction} (hr : r ∈ rs) :
    r.line r.last < r.line (r.last + 1) := by
  obtain ⟨hnext, -, -⟩ := h.finish_lines hr
  rw [hnext, length_append]
  exact Nat.lt_add_of_pos_right (Nat.lt_add_left _ Nat.one_pos)

/-- Between two quads the next one that has lines comes next. -/
theorem Invocation.Poised.located (h : a.Poised p l rs 0 rest σ) (hcompiles : Compiles tree p rs)
    (hi : a.function.first < i) (hi' : i ≤ a.function.last) :
    Located p l rs ⟨a :: rest, ⟨a.function.line i, σ⟩⟩ := by
  have hr := h.standing.function_mem
  obtain ⟨n, hn⟩ : ∃ n, a.function.last = i + n := ⟨_, (Nat.add_sub_cancel' hi').symm⟩
  induction n generalizing i with
  | zero =>
    have hlt := hcompiles.line_last_lt hr
    rw [show a.function.last = i from hn] at hlt
    exact .body (k := 0) h hi (hn ▸ quad_last a.function) hlt nofun
      (ran_zero ..)
  | succ n ih =>
    by_cases hlt : a.function.line i < a.function.line (i + 1)
    · have hnext : i < a.function.closed.code.next := by
        rw [next_closed]
        omega
      exact .body (k := 0) h hi (Array.getElem?_eq_getElem hnext) hlt nofun (ran_zero ..)
    · -- the quad has no lines
      have hle := hcompiles.line_mono hr hi.le (Nat.le_add_right i 1) (by omega)
      have heq : a.function.line i = a.function.line (i + 1) := by omega
      rw [heq]
      exact ih (by omega) (by omega) (by omega)

/-- At a line of a quad some of its lines have been run, or those after its call. -/
theorem Scene.Located.cases_of_line (h : Located p l rs ⟨a :: rest, ⟨n, σ⟩⟩)
    (hcompiles : Compiles tree p rs) (hj : a.function.first < j) (hj' : j ≤ a.function.last)
    (hle : a.function.line j ≤ n) (hlt : n < a.function.line (j + 1)) :
    (∃ q σ0, a.function.closed.code.quads[j]? = some q ∧ a.Poised p l rs 0 rest σ0 ∧
      (a.function.line j < n → a.Ranged l rs σ0.store rest q) ∧
      Ran l.image p.assembly.program (a.function.line j) (n - a.function.line j) σ0 σ) ∨
    ∃ words destination back tail, a.function.Resumes p j words destination back tail ∧
      a.function.line j < n := by
  cases h with
  | @head _ _ k σ0 _ entered hk ran =>
    have hr : a.function ∈ rs := entered.sound.mem _ mem_cons_self
    have hmono := hcompiles.line_mono hr (by omega) (show a.function.first + 1 ≤ j from hj)
      (by omega)
    have hhead := (hcompiles.start_lines hr).1
    omega
  | @body _ _ i k q σ0 _ poised hi hq hk ranged ran =>
    have hr := poised.standing.function_mem
    have hnext := Code.lt_next_of_getElem? hq
    rw [next_closed] at hnext
    rcases Nat.lt_trichotomy i j with hij | rfl | hij
    · have hmono := hcompiles.line_mono hr (by omega) (show i + 1 ≤ j from hij) (by omega)
      omega
    · rw [Nat.add_sub_cancel_left]
      exact .inl ⟨q, σ0, hq, poised, fun hpos => ranged (by omega), ran⟩
    · have hmono := hcompiles.line_mono hr (by omega) (show j + 1 ≤ i from hij) (by omega)
      omega
  | @resume _ _ i words back k destination tail σ0 _ poised resumes hk ran =>
    have hr := poised.standing.function_mem
    have hfirst := resumes.first_lt
    have hlast := resumes.lt_last
    have hline := resumes.line_lt
    have hnext := resumes.next
    rcases Nat.lt_trichotomy i j with hij | rfl | hij
    · have hmono := hcompiles.line_mono hr (by omega) (show i + 1 ≤ j from hij) (by omega)
      omega
    · exact .inr ⟨words, destination, back, tail, resumes, by omega⟩
    · have hmono := hcompiles.line_mono hr (by omega) (show j + 1 ≤ i from hij) (by omega)
      omega

end Located

end BlockLang
