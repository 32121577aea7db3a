import BlockLang.Proofs.Simulation.Expression

/-!
# The code of statements follows their meaning

The code of a statement stands somewhere in the completed code, and its pending jumps lead to some
quad there. For every run of a statement it is shown where the machine goes; and a machine that
goes on and on belongs to a statement that does not come to an ending.
-/

namespace BlockLang

open Code List Progress

namespace Emit

variable {ctx : Context} {code : Code} {function : String} {result : Ty} {stmt body : Stmt}
  {first next t : Nat}

/-- The code of a statement stands in the completed code from `first` up to `next`, and
its pending jumps lead to `t`. -/
def Placed (ctx : Context) (code : Code) (function : String) (result : Ty) (stmt : Stmt)
    (first next t : Nat) : Prop :=
  ∃ p p' pending, statement function result stmt p = .ok pending p' ∧ p.env = ctx.env ∧
    p'.code.Continues code ∧ code.Leads pending t ∧ p.code.next = first ∧ p'.code.next = next

theorem statement_continues {p p' : Progress} {pending : List Nat}
    (h : statement function result stmt p = .ok pending p') : p.Continues p' :=
  .of_emits (statement_emits function result stmt (Nat.zero_le _) h)

theorem expression_next_le {e : Expr} {p p' : Progress} {c : Computed}
    (h : expression e p = .ok c p') : p.code.next ≤ p'.code.next :=
  (expression_emits e (Nat.zero_le _) h).1.grows.next_le

/-- A condition takes at least one quad. -/
theorem condition_next_lt {e : Expr} {p p' : Progress} {exits : Exits}
    (h : condition e p = .ok exits p') : p.code.next < p'.code.next := by
  induction h using condition_induction with
  | group ih => exact ih
  | not ih => exact ih
  | logic _ _ ihleft ihright =>
    rw [withCode_code, next_patch] at ihright
    exact Nat.lt_trans ihleft ihright
  | compare h =>
    obtain ⟨a, p1, b, p2, ha, hb, hcmp⟩ := condition_compare_ok h
    obtain ⟨-, -, -, -, rfl⟩ := comparison_ok hcmp
    have hle := Nat.le_trans (expression_next_le ha) (expression_next_le hb)
    simp only [appended_code, next_push]
    omega

theorem effectCallQuads_not_pending (as : List Argument) (label : FunctionLabel) :
    ∀ q ∈ effectCallQuads as label, q.output ≠ some .pending := by
  intro q hq
  simp only [effectCallQuads, mem_append, mem_map, mem_singleton] at hq
  rcases hq with ⟨a, -, rfl⟩ | rfl <;> simp [argumentQuad, callQuadOf]

namespace Placed

theorem le (h : Placed ctx code function result stmt first next t) : first ≤ next := by
  obtain ⟨p, p', pending, hs, -, -, -, rfl, rfl⟩ := h
  exact (statement_emits function result stmt (Nat.zero_le _) hs).grows.next_le

/-! ### Statements without parts -/

theorem empty (h : Placed ctx code function result .empty first next t) : next = first := by
  obtain ⟨p, p', pending, hs, -, -, -, rfl, rfl⟩ := h
  rw [statement] at hs
  cases hs
  rfl

/-- The target of an assignment is found before its value is computed. -/
theorem assign {l : Location} {target value : Expr}
    (h : Placed ctx code function result (.assign l target value) first next t)
    (temps : Nat → Word) (s : Store) :
    (Machine.idle first temps s).Follows ctx code (fun _ s' m => ∃ temps', m = .idle next temps' s')
      (Stmt.assignment ctx .late target value s) := by
  obtain ⟨p, p', pending, hs, henv, hC, -, rfl, rfl⟩ := h
  obtain ⟨a, p1, b, p2, ha, hb, hassign, rfl⟩ := statement_assign_ok hs
  obtain ⟨-, -, -, rfl⟩ := assign_ok hassign
  have c1 := expression_continues ha
  have c2 := expression_continues hb
  have hC2 := (Continues.push p2.code _).trans hC
  refine (expression_follows target ha henv (c2.code.trans hC2) temps s).bind ?_
  rintro d1 s1 _ ⟨temps1, rfl, -, den1, -⟩
  have hq : code.quads[p2.code.next]? = some (assignQuad b.operand a.operand) := by
    -- a pending jump stands for nothing, so the target is none
    refine hC.of_not_pending getElem?_push_next fun hp => ?_
    rw [Option.some.inj hp] at den1
    cases den1
  refine (expression_follows value hb (c1.env.trans henv) hC2 temps1 s1).bind ?_
  rintro d2 s2 _ ⟨temps2, rfl, agree2, den2, -⟩
  refine (Machine.follows_assign hq den2 (den1.mono agree2 c2.size_le)).mono fun _ s' m hm => ?_
  exact ⟨temps2, by rw [hm, appended_code, next_push]⟩

theorem call {e : Expr} (h : Placed ctx code function result (.call e) first next t)
    (temps : Nat → Word) (s : Store) :
    (Machine.idle first temps s).Follows ctx code (fun _ s' m => ∃ temps', m = .idle next temps' s')
      (e.denote ctx .late s) := by
  obtain ⟨p, p', pending, hs, henv, hC, -, rfl, rfl⟩ := h
  obtain ⟨hcall, -⟩ := statement_call_ok hs
  obtain ⟨l, f, arguments, g, scope, as, q, rfl, hg, has, rfl⟩ := callForEffect_ok hcall
  obtain ⟨-, hfind, -, -⟩ := callee_ok hg
  rw [code_appendedAll] at hC ⊢
  have hstands : code.Stands q.code.next (effectCallQuads as (calleeLabel g scope)) :=
    .of_pushAll hC (effectCallQuads_not_pending _ _)
  rw [Expr.denote, ← henv, hfind]
  refine (arguments_follows g g.parameters arguments has henv
    ((Continues.pushAll _ _).trans hC) temps s).bind ?_
  rintro ds s1 _ ⟨temps1, rfl, -, hds⟩
  refine Machine.follows_passAll hstands.left hds fun xs => ?_
  rw [nil_append]
  have hq := hstands.right.head
  rw [length_map] at hq
  refine Machine.follows_call hq fun w s2 => ⟨_, .refl _, temps1, ?_⟩
  rw [next_pushAll]
  simp [effectCallQuads, Nat.add_assoc]

/-- The result is assigned before the function is left. -/
theorem returnValue {l : Location} {value : Expr}
    (h : Placed ctx code function result (.returnValue l value) first next t)
    (temps : Nat → Word) (s : Store) :
    (Machine.idle first temps s).Follows ctx code
      (fun w s' m => m.Returned code first next (some w) s')
      (Stmt.result ctx .late value s) := by
  obtain ⟨p, p', pending, hs, henv, hC, -, rfl, rfl⟩ := h
  obtain ⟨hret, -⟩ := statement_returnValue_ok hs
  obtain ⟨-, c, p1, hc, -, rfl⟩ := returnValue_ok hret
  have hC2 := (Continues.push _ returnQuad).trans hC
  have hC1 := (Continues.push p1.code _).trans hC2
  have hq : code.quads[p1.code.next]? = some (assignQuad c.operand .returnValue) :=
    hC2.of_not_pending getElem?_push_next nofun
  have hr : code.quads[p1.code.next + 1]? = some returnQuad := by
    refine hC.of_not_pending ?_ nofun
    rw [← next_push]
    exact getElem?_push_next
  refine (expression_follows value hc henv hC1 temps s).bind ?_
  rintro d s1 _ ⟨temps1, rfl, -, den, -⟩
  refine (Machine.follows_result hq den).mono ?_
  rintro w s2 _ rfl
  refine ⟨⟨.inr rfl, _, hr, rfl⟩, Nat.le_succ_of_le (expression_next_le hc), ?_, rfl, rfl⟩
  simp only [appended_code, next_push]
  exact Nat.lt_succ_self _

theorem returnNothing {l : Location}
    (h : Placed ctx code function result (.returnNothing l) first next t)
    (temps : Nat → Word) (s : Store) :
    (Machine.idle first temps s).Returned code first next none s := by
  obtain ⟨p, p', pending, hs, henv, hC, -, rfl, rfl⟩ := h
  obtain ⟨hret, -⟩ := statement_returnNothing_ok hs
  obtain ⟨-, rfl⟩ := returnNothing_ok hret
  have hq : code.quads[p.code.next]? = some returnQuad :=
    hC.of_not_pending getElem?_push_next nofun
  refine ⟨⟨.inr rfl, _, hq, rfl⟩, Nat.le_refl _, ?_, rfl, rfl⟩
  rw [appended_code, next_push]
  exact Nat.lt_succ_self _

/-! ### Statements with parts -/

theorem nil (h : Placed ctx code function result (.block []) first next t) : next = first := by
  obtain ⟨p, p', pending, hs, -, -, -, rfl, rfl⟩ := h
  rw [statement, statements] at hs
  cases hs
  rfl

/-- The first of several statements leads to the second. -/
theorem cons {rest : List Stmt}
    (h : Placed ctx code function result (.block (stmt :: rest)) first next t) :
    ∃ mid u, mid ≤ next ∧ Placed ctx code function result stmt first mid u ∧
      (rest = [] ∧ mid = next ∧ u = t ∨
        u = mid ∧ Placed ctx code function result (.block rest) mid next t) := by
  obtain ⟨p, p', pending, hs, henv, hC, ht, rfl, rfl⟩ := h
  rw [statement] at hs
  obtain ⟨l, p1, hstmt, hrest⟩ := statements_cons_ok hs
  cases rest with
  | nil =>
    rw [statements] at hrest
    cases hrest
    exact ⟨_, t, Nat.le_refl _, ⟨p, _, _, hstmt, henv, hC, ht, rfl, rfl⟩, .inl ⟨rfl, rfl, rfl⟩⟩
  | cons r rs =>
    have e1 := statement_emits function result stmt (Nat.zero_le _) hstmt
    -- the jumps of the first statement are led to the others before these begin, so the
    -- others are the code of a block of their own
    have hblock : statement function result (.block (r :: rs))
        (p1.withCode (p1.code.patch l p1.code.next)) = .ok pending p' := by
      rw [statements, bind_of_ok (patchHere_run _)] at hrest
      rw [statement, statements, bind_of_ok (patchHere_run _)]
      exact hrest
    have hC1 := (statement_continues hblock).code.trans hC
    have hnext := leads_patch e1 (List.Subset.refl l) hC1
    have hplaced : Placed ctx code function result (.block (r :: rs)) p1.code.next p'.code.next t :=
      ⟨_, p', pending, hblock, e1.env_eq.trans henv, hC, ht, next_patch _, rfl⟩
    refine ⟨p1.code.next, p1.code.next, hplaced.le,
      ⟨_, p1, l, hstmt, henv, ?_, hnext, rfl, rfl⟩, .inr ⟨rfl, hplaced⟩⟩
    exact (continues_patch e1 (List.Subset.refl l) _).code.trans hC1

theorem ifThen {c : Expr} (h : Placed ctx code function result (.ifThen c body) first next t) :
    ∃ start, first ≤ start ∧ Placed ctx code function result body start next t ∧
      ∀ temps s, (Machine.idle first temps s).Follows ctx code (ArrivesAt start next)
        (c.holds ctx .late s) := by
  obtain ⟨p, p', pending, hs, henv, hC, ht, rfl, rfl⟩ := h
  obtain ⟨exits, p1, p2, hc, hbody, rfl⟩ := statement_ifThen_ok hs
  have e1 := condition_emits c (Nat.zero_le _) hc
  have e2 := guarded_emits hc hbody
  have hC2 := (continues_patch e2 (subset_append_left _ _) p2.code.next).code.trans hC
  have hC1 := (statement_continues hbody).code.trans hC2
  -- one exit leads to the body, the other one behind it
  have htrue := leads_patch e1 (subset_append_left _ _) hC1
  have hfalse := leads_patch e2 (subset_append_left _ _) hC
  refine ⟨p1.code.next, e1.grows.next_le, ?_, fun temps s => ?_⟩
  · exact ⟨_, p2, pending, hbody, e1.env_eq.trans henv, hC2, ht, next_patch _,
      (next_patch _).symm⟩
  · rw [withCode_code, next_patch]
    exact condition_follows hc henv
      ((continues_patch e1 (subset_append_left _ _) _).code.trans hC1) htrue hfalse temps s

theorem ifElse {c : Expr} {otherwise : Stmt}
    (h : Placed ctx code function result (.ifElse c body otherwise) first next t) :
    ∃ start mid other, first ≤ start ∧ mid < other ∧
      Placed ctx code function result body start mid t ∧
      code.quads[mid]? = some (jumpQuad.ledTo t) ∧
      Placed ctx code function result otherwise other next t ∧
      ∀ temps s, (Machine.idle first temps s).Follows ctx code (ArrivesAt start other)
        (c.holds ctx .late s) := by
  obtain ⟨p, p', pending, hs, henv, hC, ht, rfl, rfl⟩ := h
  obtain ⟨exits, p1, l, p2, l', p3, hc, hbody, rfl, helse, rfl⟩ := statement_ifElse_ok hs
  have e1 := condition_emits c (Nat.zero_le _) hc
  have e2 := guarded_emits hc hbody
  have e3 := e2.appendPending (q := jumpQuad) (.inl rfl) rfl
  have hsub : exits.whenFalse ⊆ exits.whenFalse ++ l ++ [p2.code.next] := by
    rw [append_assoc]
    exact subset_append_left _ _
  have hC4 := (statement_continues helse).code.trans hC
  have hC3 := (continues_patch e3 hsub (p2.appended jumpQuad).code.next).code.trans hC4
  have hC2 := (Continues.push p2.code jumpQuad).trans hC3
  have hC1 := (statement_continues hbody).code.trans hC2
  -- one exit leads to the body, the other one to the quad after the jump behind it
  have htrue := leads_patch e1 (subset_append_left _ _) hC1
  have hfalse := leads_patch e3 hsub hC4
  refine ⟨p1.code.next, p2.code.next, (p2.appended jumpQuad).code.next, e1.grows.next_le, ?_,
    ⟨_, p2, l, hbody, e1.env_eq.trans henv, hC2, ht.left, next_patch _, rfl⟩, ?_,
    ⟨_, p', l', helse, e2.env_eq.trans henv, hC, fun i hi => ?_, next_patch _, rfl⟩,
    fun temps s => ?_⟩
  · simp
  · exact hC3.of_pending getElem?_push_next rfl ht.right mem_cons_self
  · exact ht.right i (mem_cons_of_mem _ hi)
  · exact condition_follows hc henv
      ((continues_patch e1 (subset_append_left _ _) _).code.trans hC1) htrue hfalse temps s

theorem whileDo {c : Expr}
    (h : Placed ctx code function result (.whileDo c body) first next t) :
    ∃ start mid, first < start ∧ mid < next ∧
      Placed ctx code function result body start mid first ∧
      code.quads[mid]? = some (jumpQuad.ledTo first) ∧
      ∀ temps s, (Machine.idle first temps s).Follows ctx code (ArrivesAt start t)
        (c.holds ctx .late s) := by
  obtain ⟨p, p', pending, hs, henv, hC, ht, rfl, rfl⟩ := h
  obtain ⟨exits, p1, l, p2, hc, hbody, rfl, rfl⟩ := statement_whileDo_ok hs
  have e1 := condition_emits c (Nat.zero_le _) hc
  have e2 := guarded_emits hc hbody
  have hC3 := (Continues.push (p2.code.patch l p.code.next) _).trans hC
  have hC2 := (continues_patch e2 (subset_append_right _ _) p.code.next).code.trans hC3
  have hC1 := (statement_continues hbody).code.trans hC2
  -- one exit leads to the body, and the body leads back to the condition
  have htrue := leads_patch e1 (subset_append_left _ _) hC1
  have hback := leads_patch e2 (subset_append_right _ _) hC3
  have hq : code.quads[p2.code.next]? = some (jumpQuad.ledTo p.code.next) := by
    refine hC.of_not_pending ?_ nofun
    have hlast : (p2.code.patch l p.code.next).next = p2.code.next := next_patch _
    rw [← hlast]
    exact getElem?_push_next
  have hlt := condition_next_lt hc
  refine ⟨p1.code.next, p2.code.next, hlt, by simp,
    ⟨_, p2, l, hbody, e1.env_eq.trans henv, hC2, hback, next_patch _, rfl⟩, hq,
    fun temps s => ?_⟩
  exact condition_follows hc henv
    ((continues_patch e1 (subset_append_left _ _) _).code.trans hC1) htrue ht temps s

end Placed

end Emit

/-! ### Endings -/

/-- What a machine does when a statement comes to an ending: it arrives at a quad that
is fit, stops at a return of the code from `first` up to `next`, or gets stuck. -/
def Machine.Meets (ctx : Context) (code : Code) (first next : Nat) (fit : Nat → Prop)
    (m : Machine) : Ending → Prop
  | .finished s => ∃ q temps, fit q ∧ m.Reaches ctx code (.idle q temps s)
  | .returned v s => ∃ m', m.Reaches ctx code m' ∧ m'.Returned code first next v s
  | .failed .undefined => ∃ m', m.Reaches ctx code m' ∧ m'.Stuck ctx code
  | .failed .outOfRange => True

namespace Machine.Meets

variable {ctx : Context} {code : Code} {first next first' next' : Nat} {fit fit' : Nat → Prop}
  {m m1 : Machine} {ending : Ending}

theorem after (h : m.Reaches ctx code m1) (h1 : m1.Meets ctx code first next fit ending) :
    m.Meets ctx code first next fit ending := by
  match ending, h1 with
  | .finished s, ⟨q, temps, hq, hm⟩ => exact ⟨q, temps, hq, h.trans hm⟩
  | .returned v s, ⟨m', hm, hret⟩ => exact ⟨m', h.trans hm, hret⟩
  | .failed .undefined, ⟨m', hm, hstuck⟩ => exact ⟨m', h.trans hm, hstuck⟩
  | .failed .outOfRange, _ => trivial

theorem mono (h : m.Meets ctx code first next fit ending) (hfirst : first' ≤ first)
    (hnext : next ≤ next') (hfit : ∀ q, fit q → fit' q) :
    m.Meets ctx code first' next' fit' ending := by
  match ending, h with
  | .finished s, ⟨q, temps, hq, hm⟩ => exact ⟨q, temps, hfit q hq, hm⟩
  | .returned v s, ⟨m', hm, hhalt, hlo, hhi, hrest⟩ =>
    exact ⟨m', hm, hhalt, Nat.le_trans hfirst hlo, Nat.lt_of_lt_of_le hhi hnext, hrest⟩
  | .failed .undefined, hstuck => exact hstuck
  | .failed .outOfRange, _ => trivial

/-- A statement that consists of one evaluation. -/
theorem of_follows {α : Type} {f : α → Store → Ending} {post : α → Store → Machine → Prop}
    {r : Except Fault (α × Store)} (h : m.Follows ctx code post r)
    (hf : ∀ a s m', post a s m' → m'.Meets ctx code first next fit (f a s)) :
    m.Meets ctx code first next fit (.ofResult f r) := by
  match r, h with
  | .ok (a, s), ⟨m', hm, hpost⟩ => exact after hm (hf a s m' hpost)
  | .error .undefined, hstuck => exact hstuck
  | .error .outOfRange, _ => trivial

theorem of_error {α : Type} {fault : Fault} {post : α → Store → Machine → Prop}
    (h : m.Follows ctx code post (.error fault)) :
    m.Meets ctx code first next fit (.failed fault) := by
  match fault, h with
  | .undefined, hstuck => exact hstuck
  | .outOfRange, _ => trivial

/-- An ending that is not arrived at is met from wherever. -/
theorem of_not_finished (h : m.Meets ctx code first next fit ending)
    (hending : ∀ s, ending ≠ .finished s) : m.Meets ctx code first next fit' ending := by
  match ending, h with
  | .finished s, _ => exact absurd rfl (hending s)
  | .returned v s, hret => exact hret
  | .failed .undefined, hstuck => exact hstuck
  | .failed .outOfRange, _ => trivial

/-- A jump behind the code of a statement. -/
theorem skip {mid t : Nat}
    (h : m.Meets ctx code first next (fun q => q = mid ∨ q = t) ending)
    (hq : code.quads[mid]? = some (Emit.jumpQuad.ledTo t)) :
    m.Meets ctx code first next (fun q => q = t) ending := by
  match ending, h with
  | .finished s, ⟨q, temps, hfit, hm⟩ =>
    rcases hfit with rfl | rfl
    · exact ⟨t, temps, rfl, hm.trans (.single (step?_jump hq))⟩
    · exact ⟨q, temps, rfl, hm⟩
  | .returned v s, hret => exact hret
  | .failed .undefined, hstuck => exact hstuck
  | .failed .outOfRange, _ => trivial

end Machine.Meets

namespace Emit.Placed

variable {ctx : Context} {code : Code} {function : String} {result : Ty} {stmt : Stmt}
  {first next t : Nat}

/-- The machine meets the ending of a statement. -/
theorem meets {s : Store} {ending : Ending}
    (hp : Placed ctx code function result stmt first next t)
    (h : stmt.Runs ctx .late s ending) (temps : Nat → Word) :
    (Machine.idle first temps s).Meets ctx code first next (fun q => q = next ∨ q = t) ending := by
  -- the parts of a statement are placed, too, each with its own bounds and target
  induction h generalizing first next t temps with
  | empty => exact ⟨first, temps, .inl hp.empty.symm, .refl _⟩
  | assign =>
    refine .of_follows (hp.assign temps _) ?_
    rintro _ s' _ ⟨temps', rfl⟩
    exact ⟨next, temps', .inl rfl, .refl _⟩
  | call =>
    refine .of_follows (hp.call temps _) ?_
    rintro _ s' _ ⟨temps', rfl⟩
    exact ⟨next, temps', .inl rfl, .refl _⟩
  | nil => exact ⟨first, temps, .inl hp.nil.symm, .refl _⟩
  | cons hfirst hothers ihfirst ihothers =>
    obtain ⟨mid, u, -, hstmt, hrest⟩ := hp.cons
    obtain ⟨q, temps1, hq, hreach⟩ := ihfirst hstmt temps
    obtain ⟨rfl, rfl, rfl⟩ | ⟨rfl, hrest⟩ := hrest
    · cases hothers
      exact ⟨q, temps1, hq, hreach⟩
    · obtain rfl := hq.elim id id
      exact .after hreach ((ihothers hrest temps1).mono hstmt.le (Nat.le_refl _) fun _ => id)
  | consReturned _ ih =>
    obtain ⟨mid, u, hle, hstmt, -⟩ := hp.cons
    exact ((ih hstmt temps).mono (Nat.le_refl _) hle fun _ => id).of_not_finished nofun
  | consFailed _ ih =>
    obtain ⟨mid, u, hle, hstmt, -⟩ := hp.cons
    exact ((ih hstmt temps).mono (Nat.le_refl _) hle fun _ => id).of_not_finished nofun
  | ifThen test taken ih =>
    obtain ⟨start, hle, hbody, hcond⟩ := hp.ifThen
    obtain ⟨temps1, hreach⟩ := ArrivesAt.reaches hcond test temps
    exact .after hreach ((ih hbody temps1).mono hle (Nat.le_refl _) fun _ => id)
  | ifThenSkipped test =>
    obtain ⟨start, hle, hbody, hcond⟩ := hp.ifThen
    obtain ⟨temps1, hreach⟩ := ArrivesAt.reaches hcond test temps
    exact ⟨next, temps1, .inl rfl, hreach⟩
  | ifThenFailed test =>
    obtain ⟨start, hle, hbody, hcond⟩ := hp.ifThen
    exact .of_error (test ▸ hcond temps _)
  | @ifElse _ _ _ _ _ b ending test taken ih =>
    obtain ⟨start, mid, other, hle, hlt, hbody, hskip, helse, hcond⟩ := hp.ifElse
    obtain ⟨temps1, hreach⟩ := ArrivesAt.reaches hcond test temps
    cases b with
    | true =>
      -- a body that is finished still has to jump over the other one
      refine .after hreach ((((ih hbody temps1).mono hle ?_ fun _ => id).skip hskip).mono
        (Nat.le_refl _) (Nat.le_refl _) fun _ => .inr)
      exact Nat.le_trans (Nat.le_of_lt hlt) helse.le
    | false =>
      refine .after hreach ((ih helse temps1).mono ?_ (Nat.le_refl _) fun _ => id)
      exact Nat.le_trans hle (Nat.le_trans hbody.le (Nat.le_of_lt hlt))
  | ifElseFailed test =>
    obtain ⟨start, mid, other, -, -, -, -, -, hcond⟩ := hp.ifElse
    exact .of_error (test ▸ hcond temps _)
  | whileDone test =>
    obtain ⟨start, mid, -, -, -, -, hcond⟩ := hp.whileDo
    obtain ⟨temps1, hreach⟩ := ArrivesAt.reaches hcond test temps
    exact ⟨t, temps1, .inr rfl, hreach⟩
  | whileAgain test once again ihonce ihagain =>
    obtain ⟨start, mid, -, -, hbody, hback, hcond⟩ := hp.whileDo
    obtain ⟨temps1, hreach⟩ := ArrivesAt.reaches hcond test temps
    -- the body comes back to the condition, through its jumps or the one behind it
    obtain ⟨_, temps2, rfl, hreach2⟩ := (ihonce hbody temps1).skip hback
    exact .after (hreach.trans hreach2) (ihagain hp temps2)
  | whileReturned test once ih | whileBodyFailed test once ih =>
    obtain ⟨start, mid, hlt, hnext, hbody, -, hcond⟩ := hp.whileDo
    obtain ⟨temps1, hreach⟩ := ArrivesAt.reaches hcond test temps
    have hbody := (ih hbody temps1).mono (Nat.le_of_lt hlt) (Nat.le_of_lt hnext) fun _ => id
    exact .after hreach (hbody.of_not_finished nofun)
  | whileFailed test =>
    obtain ⟨start, mid, -, -, -, -, hcond⟩ := hp.whileDo
    exact .of_error (test ▸ hcond temps _)
  | returnValue =>
    exact .of_follows (hp.returnValue temps _) fun w s' m' hm => ⟨m', .refl _, hm⟩
  | returnNothing => exact ⟨_, .refl _, hp.returnNothing temps _⟩

mutual

/-- A statement comes to an ending, or the machine goes on for any number of quads. -/
theorem proceeds : ∀ (stmt : Stmt) {first next t : Nat},
    Placed ctx code function result stmt first next t →
      ∀ (n : Nat) (temps : Nat → Word) (s : Store), (∃ ending, stmt.Runs ctx .late s ending) ∨
        ∃ m, Machine.Steps ctx code n (.idle first temps s) m
  | .empty, first, next, t, _, n, temps, s => .inl ⟨_, .empty⟩
  | .assign .., first, next, t, _, n, temps, s => .inl ⟨_, .assign⟩
  | .call e, first, next, t, _, n, temps, s => .inl ⟨_, .call⟩
  | .returnValue .., first, next, t, _, n, temps, s => .inl ⟨_, .returnValue⟩
  | .returnNothing l, first, next, t, _, n, temps, s => .inl ⟨_, .returnNothing⟩
  | .block body, first, next, t, hp, n, temps, s => block_proceeds body hp n temps s
  | .ifThen c body, first, next, t, hp, n, temps, s => by
    obtain ⟨start, -, hbody, hcond⟩ := hp.ifThen
    match test : c.holds ctx .late s with
    | .error fault => exact .inl ⟨_, .ifThenFailed test⟩
    | .ok (false, s') => exact .inl ⟨_, .ifThenSkipped test⟩
    | .ok (true, s') =>
      obtain ⟨temps1, hreach⟩ := ArrivesAt.reaches hcond test temps
      rcases proceeds body hbody n temps1 s' with ⟨ending, hruns⟩ | hgoes
      · exact .inl ⟨ending, .ifThen test hruns⟩
      · exact .inr (hreach.goesOn hgoes)
  | .ifElse c body otherwise, first, next, t, hp, n, temps, s => by
    obtain ⟨start, mid, other, -, -, hbody, -, helse, hcond⟩ := hp.ifElse
    match test : c.holds ctx .late s with
    | .error fault => exact .inl ⟨_, .ifElseFailed test⟩
    | .ok (false, s') =>
      obtain ⟨temps1, hreach⟩ := ArrivesAt.reaches hcond test temps
      rcases proceeds otherwise helse n temps1 s' with ⟨ending, hruns⟩ | hgoes
      · exact .inl ⟨ending, .ifElse test hruns⟩
      · exact .inr (hreach.goesOn hgoes)
    | .ok (true, s') =>
      obtain ⟨temps1, hreach⟩ := ArrivesAt.reaches hcond test temps
      rcases proceeds body hbody n temps1 s' with ⟨ending, hruns⟩ | hgoes
      · exact .inl ⟨ending, .ifElse test hruns⟩
      · exact .inr (hreach.goesOn hgoes)
  | .whileDo c body, first, next, t, hp, n, temps, s => by
    obtain ⟨start, mid, hlt, -, hbody, hback, hcond⟩ := hp.whileDo
    -- each turn of the loop takes a quad, so as many turns as asked for are enough
    induction n generalizing temps s with
    | zero => exact .inr ⟨_, .refl _⟩
    | succ n ih =>
      match test : c.holds ctx .late s with
      | .error fault => exact .inl ⟨_, .whileFailed test⟩
      | .ok (false, s') => exact .inl ⟨_, .whileDone test⟩
      | .ok (true, s') =>
        obtain ⟨temps1, hreach⟩ := ArrivesAt.reaches hcond test temps
        rcases proceeds body hbody (n + 1) temps1 s' with ⟨ending, hruns⟩ | hgoes
        · cases ending with
          | returned v s'' => exact .inl ⟨_, .whileReturned test hruns⟩
          | failed fault => exact .inl ⟨_, .whileBodyFailed test hruns⟩
          | finished s'' =>
            obtain ⟨_, temps2, rfl, hagain⟩ := (hbody.meets hruns temps1).skip hback
            rcases ih temps2 s'' with ⟨ending, hrest⟩ | hgoes
            · exact .inl ⟨ending, .whileAgain test hruns hrest⟩
            · exact .inr (hreach.goesOn_succ (Nat.ne_of_lt hlt) (hagain.goesOn hgoes))
        · exact .inr (hreach.goesOn hgoes)
  | .missing n, first, next, t, ⟨_, _, _, h, _⟩, _, _, _ => by cases h

theorem block_proceeds : ∀ (body : List Stmt) {first next t : Nat},
    Placed ctx code function result (.block body) first next t →
      ∀ (n : Nat) (temps : Nat → Word) (s : Store),
        (∃ ending, (Stmt.block body).Runs ctx .late s ending) ∨
          ∃ m, Machine.Steps ctx code n (.idle first temps s) m
  | [], first, next, t, _, n, temps, s => .inl ⟨_, .nil⟩
  | stmt :: rest, first, next, t, hp, n, temps, s => by
    obtain ⟨mid, u, -, hstmt, hrest⟩ := hp.cons
    rcases proceeds stmt hstmt n temps s with ⟨ending, hruns⟩ | hgoes
    · cases ending with
      | returned v s' => exact .inl ⟨_, .consReturned hruns⟩
      | failed fault => exact .inl ⟨_, .consFailed hruns⟩
      | finished s' =>
        obtain ⟨rfl, -, -⟩ | ⟨rfl, hrest⟩ := hrest
        · exact .inl ⟨_, .cons hruns .nil⟩
        · obtain ⟨q, temps1, hq, hreach⟩ := hstmt.meets hruns temps
          obtain rfl := hq.elim id id
          rcases block_proceeds rest hrest n temps1 s' with ⟨ending, hothers⟩ | hgoes
          · exact .inl ⟨ending, .cons hruns hothers⟩
          · exact .inr (hreach.goesOn hgoes)
    · exact .inr hgoes

end

end Emit.Placed

end BlockLang
