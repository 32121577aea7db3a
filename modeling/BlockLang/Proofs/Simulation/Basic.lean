import BlockLang.Proofs.Code.Continuation
import BlockLang.Proofs.Quad.Machine
import BlockLang.Proofs.Tree.Meaning

/-!
# Machines that follow evaluations

A machine follows an evaluation if it arrives where the evaluation has a result, and gets stuck
where the evaluation is undefined; nothing is asked where a subscript is out of range. An operand
stands for the place or the value that an expression denotes, as long as its temporaries are left
alone.
-/

namespace BlockLang

open Emit Eval Function Machine

variable {x : Argument} {operator : Arith} {label : FunctionLabel} {xs : List Passed} {m : Machine}
  {relation : Relation}

namespace Machine

variable {ctx : Context} {code : Code} {m m1 : Machine} {α β : Type}

/-- A machine arrives where an evaluation has a result, and gets stuck where it is
undefined. -/
def Follows (ctx : Context) (code : Code) (m : Machine) (post : α → Store → Machine → Prop) :
    Except Fault (α × Store) → Prop
  | .ok (a, s) => ∃ m', m.Reaches ctx code m' ∧ post a s m'
  | .error .undefined => ∃ m', m.Reaches ctx code m' ∧ m'.Stuck ctx code
  | .error .outOfRange => True

namespace Follows

variable {post : α → Store → Machine → Prop} {r : Except Fault (α × Store)}

theorem after (h : m.Reaches ctx code m1) (h1 : m1.Follows ctx code post r) :
    m.Follows ctx code post r := by
  match r, h1 with
  | .ok (a, s), ⟨m', hm', hpost⟩ => exact ⟨m', h.trans hm', hpost⟩
  | .error .undefined, ⟨m', hm', hstuck⟩ => exact ⟨m', h.trans hm', hstuck⟩
  | .error .outOfRange, _ => trivial

theorem step (h : m.step? ctx code = some m1) (h1 : m1.Follows ctx code post r) :
    m.Follows ctx code post r := after (.single h) h1

theorem bind {x : Eval α} {f : α → Eval β} {s : Store} {post' : β → Store → Machine → Prop}
    (hx : m.Follows ctx code post (x s))
    (hf : ∀ a s' m', post a s' m' → m'.Follows ctx code post' (f a s')) :
    m.Follows ctx code post' ((x >>= f) s) := by
  rw [bind_run]
  match x s, hx with
  | .ok (a, s'), ⟨m', hm', hpost⟩ => exact after hm' (hf a s' m' hpost)
  | .error .undefined, hstuck => exact hstuck
  | .error .outOfRange, _ => trivial

theorem mono {post' : α → Store → Machine → Prop} (h : m.Follows ctx code post r)
    (hpost : ∀ a s m', post a s m' → post' a s m') : m.Follows ctx code post' r := by
  match r, h with
  | .ok (a, s), ⟨m', hm', hp⟩ => exact ⟨m', hm', hpost a s m' hp⟩
  | .error .undefined, hstuck => exact hstuck
  | .error .outOfRange, _ => trivial

/-- Something that may be missing: the machine gets stuck without it. -/
theorem ofOption {o : Option α} {f : α → Eval β} {s : Store} {post' : β → Store → Machine → Prop}
    (hnone : o = none → m.Stuck ctx code)
    (hsome : ∀ a, o = some a → m.Follows ctx code post' (f a s)) :
    m.Follows ctx code post' ((ofOption o >>= f) s) := by
  cases o with
  | none => exact ⟨m, .refl m, hnone rfl⟩
  | some a => exact hsome a rfl

theorem read {d : Denoted} {f : Word → Eval β} {s : Store} {post' : β → Store → Machine → Prop}
    (hnone : d.read? s = none → m.Stuck ctx code)
    (hsome : ∀ w, d.read? s = some w → m.Follows ctx code post' (f w s)) :
    m.Follows ctx code post' ((read d >>= f) s) := ofOption hnone hsome

end Follows

/-- A machine without a further step is stuck, unless it has stopped. -/
theorem stuck_of_step? {q : Quad} (h : m.step? ctx code = none)
    (hq : code.quads[m.quad]? = some q) (hend : q.op ≠ .endUnit) (hret : q.op ≠ .ret) :
    m.Stuck ctx code := by
  refine ⟨h, fun op ⟨hop, r, hr, hrop⟩ => ?_⟩
  rw [hq] at hr
  cases hr
  rcases hop with rfl | rfl
  · exact hend hrop
  · exact hret hrop

end Machine

/-! ### Operands -/

/-- The first words of two lists of temporaries are the same. -/
def AgreeBelow (n : Nat) (temps temps' : Nat → Word) : Prop := ∀ k, k < n → temps' k = temps k

theorem AgreeBelow.refl (n : Nat) (temps : Nat → Word) : AgreeBelow n temps temps := fun _ _ => rfl

theorem AgreeBelow.trans {n n' : Nat} {temps temps1 temps2 : Nat → Word}
    (h : AgreeBelow n temps temps1) (h' : AgreeBelow n' temps1 temps2) (hn : n ≤ n') :
    AgreeBelow n temps temps2 :=
  fun k hk => (h' k (Nat.lt_of_lt_of_le hk hn)).trans (h k hk)

/-- A temporary that is taken later changes nothing below. -/
theorem AgreeBelow.update {n k : Nat} {temps temps' : Nat → Word}
    (h : AgreeBelow n temps temps') (hk : n ≤ k) (w : Word) :
    AgreeBelow n temps (update temps' k w) :=
  fun i hi => (update_of_ne (by omega) _ _).trans (h i hi)

/-- What an expression stands for can be used with a shape. A leading extent that is
left open fits any number of rows. -/
def Denoted.Fits (shape : Shape) : Denoted → Prop
  | .value _ => shape.extents = []
  | .place s _ => s.ty = shape.ty ∧ s.extents.length = shape.extents.length ∧
      s.extents.tail = shape.extents.tail

/-- Scalars have a value. -/
theorem Denoted.Fits.read? {shape : Shape} {d : Denoted} (h : d.Fits shape)
    (hs : shape.extents = []) (s : Store) : ∃ w, d.read? s = some w := by
  match d, h with
  | .value w, _ => exact ⟨w, rfl⟩
  | .place ⟨ty, []⟩ a, _ => exact ⟨_, rfl⟩
  | .place ⟨ty, n :: ns⟩ a, ⟨_, hlen, _⟩ =>
    rw [hs] at hlen
    cases hlen

/-- An operand stands for a place or a value. Its temporary, if it has one, is one of
the first `bound`. -/
inductive Operand.Denotes (ctx : Context) (code : Code) (bound : Nat) (temps : Nat → Word) :
    Operand → Denoted → Prop
  | temp {n : Nat} (lt : n < bound) : Denotes ctx code bound temps (.temp n) (.value (temps n))
  | int (w : Word) : Denotes ctx code bound temps (.int w) (.value w)
  | char (b : UInt8) : Denotes ctx code bound temps (.char b) (.value (.ofByte b))
  | name {x : String} {d : Denoted} (place : ctx.place? x = some d) :
      Denotes ctx code bound temps (.name x) d
  | cell {n : Nat} {shape : Shape} (lt : n < bound)
      (info : code.cell? n = some ⟨shape.ty, shape.extents.length⟩) :
      Denotes ctx code bound temps (.cell n) (.place shape (temps n))
  | string (s : String) : Denotes ctx code bound temps (.string s)
      (.place ⟨.char, [s.utf8ByteSize + 1]⟩ (ctx.literal s))

namespace Context

/-- Names stand for places. -/
theorem place?_eq_some {ctx : Context} {x : String} {d : Denoted}
    (h : ctx.place? x = some d) : ∃ shape, d = .place shape (ctx.address x) := by
  unfold place? at h
  split at h
  · exact ⟨_, (Option.some.inj h).symm⟩
  · exact ⟨_, (Option.some.inj h).symm⟩
  · cases h

end Context

namespace Operand.Denotes

variable {ctx : Context} {code : Code} {bound bound' : Nat} {temps temps' : Nat → Word}
  {o : Operand} {d : Denoted} {m : Machine}

theorem temp_update {n : Nat} (lt : n < bound) (w : Word) :
    (Operand.temp n).Denotes ctx code bound (update temps n w) (.value w) := by
  have h : (Operand.temp n).Denotes ctx code bound (update temps n w) _ := .temp lt
  rwa [update_self] at h

/-- Operands keep their meaning while their temporaries are left alone. -/
theorem mono (h : o.Denotes ctx code bound temps d) (ha : AgreeBelow bound temps temps')
    (hb : bound ≤ bound') : o.Denotes ctx code bound' temps' d := by
  cases h with
  | temp lt => exact ha _ lt ▸ .temp (Nat.lt_of_lt_of_le lt hb)
  | int w => exact .int w
  | char b => exact .char b
  | name place => exact .name place
  | cell lt info => exact ha _ lt ▸ .cell (Nat.lt_of_lt_of_le lt hb) info
  | string s => exact .string s

/-- The machine writes to the place that an operand stands for. -/
theorem scalar? (h : o.Denotes ctx code bound m.temps d) :
    m.scalar? ctx code o = d.scalar? := by
  cases h with
  | name place => rw [scalar?, place, Option.bind_some]
  | @cell n shape lt info =>
    obtain ⟨ty, extents⟩ := shape
    cases extents <;> simp [scalar?, Denoted.scalar?, info]
  | _ => rfl

/-- The machine reads the value of what an operand stands for. -/
theorem value? (h : o.Denotes ctx code bound m.temps d) :
    m.value? ctx code o = d.read? m.store := by
  have hscalar := h.scalar?
  cases h with
  | name place =>
    obtain ⟨⟨ty, extents⟩, rfl⟩ := ctx.place?_eq_some place
    rw [value?, hscalar]
    · cases extents <;> rfl
    all_goals nofun
  | @cell n shape lt info =>
    obtain ⟨ty, extents⟩ := shape
    rw [value?, hscalar]
    · cases extents <;> rfl
    all_goals nofun
  | _ => rfl

/-- The machine finds the address of what an operand stands for. -/
theorem address? {shape : Shape} {a : Word}
    (h : o.Denotes ctx code bound m.temps (.place shape a)) : m.address? ctx o = some a := by
  cases h with
  | name place =>
    obtain ⟨s, hs⟩ := ctx.place?_eq_some place
    cases hs
    rfl
  | cell lt info => rfl
  | string s => rfl

/-- Values have no address. -/
theorem address?_value {w : Word} (h : o.Denotes ctx code bound m.temps (.value w)) :
    m.address? ctx o = none := by
  cases h with
  | name place =>
    obtain ⟨shape, hs⟩ := ctx.place?_eq_some place
    cases hs
  | _ => rfl

end Operand.Denotes

/-! ### Single quads -/

namespace Machine

variable {ctx : Context} {code : Code} {bound : Nat} {q n t : Nat} {temps : Nat → Word} {s : Store}
  {a b o : Operand} {da db d : Denoted} {α : Type} {post : α → Store → Machine → Prop}

theorem value?_idle (q : Nat) (s : Store) (h : o.Denotes ctx code bound temps d) :
    (idle q temps s).value? ctx code o = d.read? s := h.value?

theorem value?_temp (q n : Nat) (temps : Nat → Word) (w : Word) (s : Store) :
    (idle q (update temps n w) s).value? ctx code (.temp n) = some w := by
  simp [value?, idle]

theorem step?_arith (hq : code.quads[m.quad]? = some (arithQuad operator a b n)) :
    m.step? ctx code = do
      let x ← m.value? ctx code a
      let y ← m.value? ctx code b
      let w ← operator.compute? x y
      return (m.setTemp n w).advance :=
  step?_eq hq

theorem step?_array {info : CellInfo} (hq : code.quads[m.quad]? = some (elementQuad a b n))
    (hinfo : code.cell? n = some info) :
    m.step? ctx code = do
      let base ← m.address? ctx a
      let i ← m.value? ctx code b
      return (m.setTemp n (base + .ofNat info.element.size * i)).advance := by
  rw [step?_eq hq]
  simp [perform?, hinfo, elementQuad]

theorem step?_compare (hq : code.quads[m.quad]? = some ((compareQuad relation a b).ledTo t)) :
    m.step? ctx code = do
      let x ← m.value? ctx code a
      let y ← m.value? ctx code b
      return if relation.holds x y then { m with quad := t } else m.advance :=
  step?_eq hq

theorem step?_jump (hq : code.quads[m.quad]? = some (jumpQuad.ledTo t)) :
    m.step? ctx code = some { m with quad := t } :=
  step?_eq hq

theorem step?_assign (hq : code.quads[m.quad]? = some (assignQuad a o)) :
    m.step? ctx code = do
      let w ← m.value? ctx code a
      let m ← m.assign? ctx code o w
      return m.advance :=
  step?_eq hq

/-- An operation is undefined where the machine gets stuck. -/
theorem follows_arith {f : Word → Eval α}
    (hq : code.quads[q]? = some (arithQuad operator a b n))
    (ha : a.Denotes ctx code bound temps da) (hb : b.Denotes ctx code bound temps db)
    (hf : ∀ w, (idle (q + 1) (update temps n w) s).Follows ctx code post (f w s)) :
    (idle q temps s).Follows ctx code post
      ((do let x ← read da
           let y ← read db
           f (← ofOption (operator.compute? x y))) s) := by
  have hstep : (idle q temps s).step? ctx code = _ := step?_arith hq
  rw [value?_idle q s ha, value?_idle q s hb] at hstep
  have hstuck : (idle q temps s).step? ctx code = none → (idle q temps s).Stuck ctx code :=
    fun h => stuck_of_step? h hq nofun nofun
  -- an operand or a result that is missing is missing for the machine, too
  refine .read (fun h => hstuck ?_) fun x hx => .read (fun h => hstuck ?_) fun y hy =>
    .ofOption (fun h => hstuck ?_) fun w hw => .step (hstep.trans ?_) (hf w)
  · simp [hstep, h]
  · simp [hstep, hx, h]
  · simp [hstep, hx, hy, h]
  · simp only [hx, hy, hw, Option.bind_eq_bind, Option.bind_some]
    rfl

/-- A comparison and the jump behind it lead to one of two targets. -/
theorem follows_compare {u : Nat} {f : Bool → Eval α}
    (hq : code.quads[q]? = some ((compareQuad relation a b).ledTo t))
    (hj : code.quads[q + 1]? = some (jumpQuad.ledTo u))
    (ha : a.Denotes ctx code bound temps da) (hb : b.Denotes ctx code bound temps db)
    (hf : ∀ w, (idle (if w then t else u) temps s).Follows ctx code post (f w s)) :
    (idle q temps s).Follows ctx code post
      ((do let x ← read da
           let y ← read db
           f (relation.holds x y)) s) := by
  have hstep : (idle q temps s).step? ctx code = _ := step?_compare hq
  rw [value?_idle q s ha, value?_idle q s hb] at hstep
  have hstuck : (idle q temps s).step? ctx code = none → (idle q temps s).Stuck ctx code :=
    fun h => stuck_of_step? h hq nofun nofun
  refine .read (fun h => hstuck ?_) fun x hx => .read (fun h => hstuck ?_) fun y hy => ?_
  · simp [hstep, h]
  · simp [hstep, hx, h]
  · have htaken := hf (relation.holds x y)
    cases hr : relation.holds x y with
    | true =>
      rw [hr] at htaken
      have hpassed : (idle q temps s).step? ctx code = some (idle t temps s) :=
        hstep.trans (by simp only [hx, hy, hr, Option.bind_eq_bind, Option.bind_some]; rfl)
      exact .step hpassed htaken
    | false =>
      rw [hr] at htaken
      have hpassed : (idle q temps s).step? ctx code = some (idle (q + 1) temps s) :=
        hstep.trans (by simp only [hx, hy, hr, Option.bind_eq_bind, Option.bind_some]; rfl)
      exact .step hpassed (.step (step?_jump hj) htaken)

/-- An assignment writes the value that its right side has at that time. -/
theorem follows_assign (hq : code.quads[q]? = some (assignQuad a o))
    (ha : a.Denotes ctx code bound temps da) (ho : o.Denotes ctx code bound temps d) :
    (idle q temps s).Follows ctx code (fun _ s' m => m = idle (q + 1) temps s')
      ((do write d (← read da)) s) := by
  have hstep : (idle q temps s).step? ctx code = _ := step?_assign hq
  -- the result of the function stands for no place
  have hne : o ≠ .returnValue := by rintro rfl; cases ho
  have hscalar : (idle q temps s).scalar? ctx code o = d.scalar? := ho.scalar?
  simp only [value?_idle q s ha, assign?, if_neg hne, hscalar] at hstep
  have hstuck : (idle q temps s).step? ctx code = none → (idle q temps s).Stuck ctx code :=
    fun h => stuck_of_step? h hq nofun nofun
  refine .read (fun h => hstuck ?_) fun w hw => .ofOption (fun h => hstuck ?_) fun place hplace =>
    ⟨_, .single (hstep.trans ?_), rfl⟩
  · simp [hstep, h]
  · simp [hstep, hw, h]
  · simp only [hw, hplace, Option.map_some, Option.bind_eq_bind, Option.bind_some]
    rfl

theorem follows_result (hq : code.quads[q]? = some (assignQuad a .returnValue))
    (ha : a.Denotes ctx code bound temps da) :
    (idle q temps s).Follows ctx code
      (fun w s' m => m = { idle (q + 1) temps s' with result := some w }) (read da s) := by
  have hstep : (idle q temps s).step? ctx code = _ := step?_assign hq
  simp only [value?_idle q s ha, assign?, if_pos] at hstep
  cases hw : da.read? s with
  | none =>
    rw [read_of_none hw]
    exact ⟨_, .refl _, stuck_of_step? (by simp [hstep, hw]) hq nofun nofun⟩
  | some w =>
    rw [read_of_some hw]
    refine ⟨_, .single (hstep.trans ?_), rfl⟩
    simp only [hw, Option.bind_eq_bind, Option.bind_some]
    rfl

/-! ### Calls -/

theorem step?_par (hq : code.quads[m.quad]? = some (argumentQuad x)) :
    m.step? ctx code =
      (m.pass? ctx code x.value (if x.byReference then .byReference else .byValue)).map advance :=
  (step?_eq hq).trans Option.map_eq_bind.symm

/-- An argument is handed over, by reference or by its value at that time. -/
theorem follows_pass {f : Passed → Eval α} (hq : code.quads[q]? = some (argumentQuad x))
    (hx : x.value.Denotes ctx code bound temps d)
    (hf : ∀ y, Follows ctx code ⟨q + 1, temps, s, none, xs ++ [y], none⟩ post (f y s)) :
    Follows ctx code ⟨q, temps, s, none, xs, none⟩ post ((d.pass x.byReference >>= f) s) := by
  have hstep : step? ctx code ⟨q, temps, s, none, xs, none⟩ = _ := step?_par hq
  have hstuck : step? ctx code ⟨q, temps, s, none, xs, none⟩ = none →
      Stuck ctx code ⟨q, temps, s, none, xs, none⟩ :=
    fun h => stuck_of_step? h hq nofun nofun
  have hvalue : value? ctx code ⟨q, temps, s, none, xs, none⟩ x.value = d.read? s :=
    hx.value?
  unfold Denoted.pass
  cases hr : x.byReference with
  | true =>
    simp only [hr, if_true, pass?] at hstep
    cases d with
    | value w =>
      rw [hx.address?_value] at hstep
      exact ⟨_, .refl _, hstuck hstep⟩
    | place shape a =>
      rw [hx.address?] at hstep
      exact .step hstep (hf (.reference a))
  | false =>
    simp only [hr, Bool.false_eq_true, if_false, pass?, hvalue] at hstep ⊢
    rw [bind_assoc]
    refine .read (fun h => hstuck ?_) fun w hw => .step ?_ (hf (.value w))
    · simp [hstep, h]
    · rw [hstep, hw]
      rfl

/-- The arguments of a call are handed over one after the other. -/
theorem follows_passAll {as : List Argument} {ds : List (Bool × Denoted)} {f : List Passed → Eval α}
    (hq : code.Stands q (as.map argumentQuad))
    (hds : List.Forall₂ (fun a x => a.byReference = x.1 ∧
      a.value.Denotes ctx code bound temps x.2) as ds)
    (hf : ∀ ys, Follows ctx code ⟨q + as.length, temps, s, none, xs ++ ys, none⟩ post (f ys s)) :
    Follows ctx code ⟨q, temps, s, none, xs, none⟩ post
      ((passAll ds >>= f) s) := by
  -- `xs` has been handed over before
  induction hds generalizing q xs f with
  | nil =>
    rw [passAll, pure_bind]
    simpa using hf []
  | @cons a x as ds hax _ ih =>
    rw [passAll, bind_assoc, ← hax.1]
    refine follows_pass hq.head hax.2 fun y => ?_
    rw [bind_assoc]
    refine ih hq.tail fun ys => ?_
    rw [pure_bind]
    have hend := hf (y :: ys)
    rwa [List.length_cons, ← Nat.add_assoc, Nat.add_right_comm, List.append_cons] at hend

theorem step?_destination (hq : code.quads[m.quad]? = some (destinationQuad n)) :
    m.step? ctx code = some { m with quad := m.quad + 1, destination := some n } :=
  step?_eq hq

theorem step?_call (hq : code.quads[m.quad]? = some (callQuadOf label)) :
    m.step? ctx code = (m.call? ctx label).map advance :=
  (step?_eq hq).trans Option.map_eq_bind.symm

/-- A call, whose result goes into a temporary if there is one for it. -/
theorem follows_call {destination : Option Nat} {f : Word → Eval α}
    (hq : code.quads[q]? = some (callQuadOf label))
    (hf : ∀ w s', (idle (q + 1) (destination.elim temps (update temps · w)) s').Follows
      ctx code post (f w s')) :
    Follows ctx code ⟨q, temps, s, none, xs, destination⟩ post ((ctx.callOf label xs >>= f) s) := by
  have hstep : step? ctx code ⟨q, temps, s, none, xs, destination⟩ = _ := step?_call hq
  rw [bind_run, ctx.callOf_run]
  cases hcall : ctx.call label xs s with
  | none =>
    refine ⟨_, .refl _, stuck_of_step? (hstep.trans ?_) hq nofun nofun⟩
    simp [call?, hcall]
  | some r =>
    refine .step (hstep.trans ?_) (hf r.1 r.2)
    cases destination <;> simp [call?, hcall] <;> rfl

end Machine

end BlockLang
