import BlockLang.Proofs.Tree.Meaning

/-!
# Operands that keep their values until they are used

An operand that is read late has the value it had at once unless a call in a later operand has
changed it. An evaluation is undisturbed if no operand is changed in this way: the left side of an
operation or a comparison by the right side, the first subscript by the second, an argument that is
passed by value by the arguments after it.
-/

namespace BlockLang

open Denoted Eval

variable {d : Denoted} {x x' : Eval (List (Bool × Denoted))} {e value : Expr} {l : Location}
  {reading : Reading} {s s' : Store}

namespace Denoted

/-- A settled operand keeps the value that its place had. -/
theorem read?_settled (h : d.read? s' = d.read? s) : (d.settled s).read? s' = d.read? s' := by
  unfold settled
  cases hd : d.read? s with
  | none => rfl
  | some w => exact (h.trans hd).symm

end Denoted

namespace Eval

variable {α β γ : Type}

/-! ### Evaluations from one memory -/

/-- If there is a result, it and the memory that is left satisfy `P`. -/
def After (x : Eval α) (s : Store) (P : α → Store → Prop) : Prop :=
  ∀ a s', x s = .ok (a, s') → P a s'

/-- An evaluation does not change the value of an operand. -/
def Spares (x : Eval α) (s : Store) (d : Denoted) : Prop :=
  x.After s fun _ s' => d.read? s' = d.read? s

theorem bind_congr_from {x x' : Eval α} {f f' : α → Eval β} (hx : x s = x' s)
    (hf : x'.After s fun a s' => f a s' = f' a s') : (x >>= f) s = (x' >>= f') s := by
  rw [bind_run, bind_run, hx]
  cases h : x' s with
  | error fault => rfl
  | ok r => exact hf r.1 r.2 h

theorem read_eq_ok {w : Word} (h : read d s = .ok (w, s')) : d.read? s = some w ∧ s' = s := by
  cases hd : d.read? s with
  | none => cases (read_of_none hd).symm.trans h
  | some v => cases (read_of_some hd).symm.trans h; exact ⟨rfl, rfl⟩

theorem read_settled (h : d.read? s' = d.read? s) : read (d.settled s) s' = read d s' := by
  change ofOption ((d.settled s).read? s') s' = ofOption (d.read? s') s'
  rw [read?_settled h]

theorem settle_atOnce_bind (d : Denoted) (f : Denoted → Eval α) (s : Store) :
    (settle .atOnce d >>= f) s = f (d.settled s) s := rfl

/-- An operand may be read after an evaluation that does not change its value. -/
theorem settle_bind_read {y y' : Eval β} (hy : y s = y' s) (hd : y'.Spares s d)
    (f : β → Word → Eval γ) :
    (settle .atOnce d >>= fun a => y >>= fun b => read a >>= f b) s =
      (y' >>= fun b => read d >>= f b) s := by
  rw [settle_atOnce_bind]
  refine bind_congr_from hy fun b s' hb => ?_
  exact bind_congr_from (read_settled (hd b s' hb)) fun _ _ _ => rfl

/-! ### Evaluations that leave the memory as it is -/

/-- An evaluation leaves the memory as it is. -/
def Keeps (x : Eval α) : Prop := ∀ s, x.After s fun _ s' => s' = s

theorem Keeps.spares {x : Eval α} (h : x.Keeps) (s : Store) (d : Denoted) : x.Spares s d := by
  intro a s' hx
  rw [h s a s' hx]

theorem keeps_pure (a : α) : (pure a : Eval α).Keeps := by
  intro s b s' h
  cases h
  rfl

theorem keeps_throw (fault : Fault) : (throw fault : Eval α).Keeps := by
  intro s a s' h
  cases h

theorem Keeps.bind {x : Eval α} {f : α → Eval β} (hx : x.Keeps) (hf : ∀ a, (f a).Keeps) :
    (x >>= f).Keeps := by
  intro s b s' h
  rw [bind_run] at h
  split at h
  · rename_i a s1 ha
    rw [hf a s1 b s' h, hx s a s1 ha]
  · cases h

theorem keeps_ofOption (o : Option α) : (ofOption o).Keeps := by
  cases o
  · exact keeps_throw _
  · exact keeps_pure _

theorem keeps_read (d : Denoted) : (read d).Keeps := fun _ _ _ h => (read_eq_ok h).2

theorem keeps_settle (reading : Reading) (d : Denoted) : (settle reading d).Keeps := by
  intro s a s' h
  cases reading <;> cases h <;> rfl

end Eval

theorem Denoted.keeps_select (is : List Word) (d : Denoted) : (d.select is).Keeps := by
  unfold select
  split
  · split
    · exact keeps_pure _
    · exact keeps_throw _
  · exact keeps_throw _

theorem Denoted.keeps_pass (byReference : Bool) (d : Denoted) :
    (d.pass byReference).Keeps := by
  unfold pass
  split
  · split
    · exact keeps_pure _
    · exact keeps_throw _
  · exact (keeps_read d).bind fun w => keeps_pure _

theorem Denoted.pass_settled (h : d.read? s' = d.read? s) :
    (d.settled s).pass false s' = d.pass false s' :=
  bind_congr_from (read_settled h) fun _ _ _ => rfl

/-! ### Expressions and conditions -/

namespace Expr

section Undisturbed

variable (ctx : Context)

mutual

/-- When an expression is evaluated, no operand is changed before it is used. -/
def Undisturbed : Expr → Store → Prop
  | .index _ base first more, s => base.Undisturbed s ∧ (base.denote ctx .late).After s fun _ s1 =>
      first.Undisturbed s1 ∧ (first.denote ctx .late).After s1 fun d s2 =>
        UndisturbedSubscripts d more s2
  | .call _ f arguments, s =>
      match ctx.env.find? f with
      | some ⟨.fn g, _⟩ => UndisturbedArguments g.parameters arguments s
      | _ => True
  | .group _ e, s | .sign _ _ e, s => e.Undisturbed s
  | .arith _ _ left right, s => left.Undisturbed s ∧ (left.denote ctx .late).After s fun d s1 =>
      right.Undisturbed s1 ∧ (right.denote ctx .late).Spares s1 d
  | _, _ => True

/-- When subscripts are evaluated after one that was evaluated to `d`, none is changed
before it is used. -/
def UndisturbedSubscripts (d : Denoted) : List Expr → Store → Prop
  | [], _ => True
  | e :: es, s => e.Undisturbed s ∧ (e.denote ctx .late).Spares s d ∧
      (e.denote ctx .late).After s fun d' s1 =>
        ∀ j, d'.read? s1 = some j → UndisturbedSubscripts (.value j) es s1

/-- When arguments are evaluated, none that is passed by value is changed before it is
passed. -/
def UndisturbedArguments : List Parameter → List Expr → Store → Prop
  | q :: qs, e :: es, s => e.Undisturbed s ∧ (e.denote ctx .late).After s fun d s1 =>
      UndisturbedArguments qs es s1 ∧
        (q.byReference = false → (denoteArguments ctx .late qs es).Spares s1 d)
  | _, _, _ => True

end

/-- When a condition is evaluated, no operand is changed before it is used. -/
def UndisturbedCondition : Expr → Store → Prop
  | .group _ e, s | .not _ e, s => e.UndisturbedCondition s
  | .logic _ connective left right, s =>
      left.UndisturbedCondition s ∧ (left.holds ctx .late).After s fun b s1 =>
        (b = true ↔ connective = .and) → right.UndisturbedCondition s1
  | .compare _ _ left right, s =>
      left.Undisturbed ctx s ∧ (left.denote ctx .late).After s fun d s1 =>
        right.Undisturbed ctx s1 ∧ (right.denote ctx .late).Spares s1 d
  | _, _ => True

end Undisturbed

variable {ctx : Context}

/-- Two results of the evaluation of arguments with which the same is handed over. -/
inductive SameArguments : Except Fault (List (Bool × Denoted) × Store) →
    Except Fault (List (Bool × Denoted) × Store) → Prop
  | error {fault : Fault} : SameArguments (.error fault) (.error fault)
  | ok {ds ds' : List (Bool × Denoted)} {s : Store}
      (same : passAll ds s = passAll ds' s) :
      SameArguments (.ok (ds, s)) (.ok (ds', s))

theorem SameArguments.bind_eq (h : SameArguments (x s) (x' s)) {α : Type}
    (f : List Passed → Eval α) :
    (x >>= fun ds => passAll ds >>= f) s = (x' >>= fun ds => passAll ds >>= f) s := by
  rw [bind_run, bind_run]
  generalize x s = r at h
  generalize x' s = r' at h
  cases h with
  | error => rfl
  | ok same => exact bind_congr_from same fun _ _ _ => rfl

/-- Arguments in front that are handed over in the same way. -/
theorem SameArguments.cons (h : SameArguments (x s) (x' s)) {b : Bool} {d' : Denoted}
    (hd : x'.After s fun _ s' => d.pass b s' = d'.pass b s') :
    SameArguments ((x >>= fun ds => pure ((b, d) :: ds)) s)
      ((x' >>= fun ds => pure ((b, d') :: ds)) s) := by
  rw [bind_run, bind_run]
  unfold After at hd
  generalize x s = r at h
  generalize x' s = r' at h hd
  cases h with
  | error => exact .error
  | @ok ds ds' s' same =>
    refine .ok ?_
    rw [passAll, passAll]
    refine bind_congr_from (hd ds' s' rfl) fun passed s1 hpassed => ?_
    obtain rfl := d'.keeps_pass b s' passed s1 hpassed
    exact bind_congr_from same fun _ _ _ => rfl

mutual

/-- An undisturbed evaluation does not depend on when operands are read. -/
theorem denote_atOnce : ∀ (e : Expr) (s : Store), e.Undisturbed ctx s →
    e.denote ctx .atOnce s = e.denote ctx .late s
  | .name .., _, _ => by rw [denote, denote]
  | .int .., _, _ => by rw [denote, denote]
  | .char .., _, _ => by rw [denote, denote]
  | .string .., _, _ => by rw [denote, denote]
  | .index _ base first more, s, h => by
    rw [Undisturbed] at h
    rw [denote, denote]
    refine bind_congr_from (denote_atOnce base s h.1) fun array s1 ha => ?_
    obtain ⟨hfirst, hmore⟩ := h.2 array s1 ha
    refine bind_congr_from (denote_atOnce first s1 hfirst) fun d s2 hd => ?_
    dsimp only
    rw [settle_atOnce_bind, settle_late_bind]
    exact bind_congr_from (subscripts_atOnce more d s2 (hmore d s2 hd)) fun _ _ _ => rfl
  | .call _ f arguments, s, h => by
    rw [Undisturbed] at h
    rw [denote, denote]
    generalize ctx.env.find? f = binding at h ⊢
    rcases binding with _ | ⟨_ | _ | g, scope⟩
    case some.fn => exact (arguments_atOnce g.parameters arguments s h).bind_eq _
    all_goals rfl
  | .group _ inner, s, h => by
    rw [Undisturbed] at h
    rw [denote, denote]
    exact denote_atOnce inner s h
  | .arith _ operator left right, s, h => by
    rw [Undisturbed] at h
    rw [denote, denote]
    refine bind_congr_from (denote_atOnce left s h.1) fun d s1 hd => ?_
    obtain ⟨hright, hspares⟩ := h.2 d s1 hd
    exact settle_bind_read (denote_atOnce right s1 hright) hspares _
  | .sign _ .minus operand, s, h => by
    rw [Undisturbed] at h
    rw [denote, denote]
    exact bind_congr_from (denote_atOnce operand s h) fun _ _ _ => rfl
  | .sign _ .plus operand, s, h => by
    rw [Undisturbed] at h
    rw [denote, denote]
    exact denote_atOnce operand s h
  | .compare .., _, _ => rfl
  | .logic .., _, _ => rfl
  | .not .., _, _ => rfl
  | .missing _, _, _ => rfl

theorem subscripts_atOnce : ∀ (es : List Expr) (d : Denoted) (s : Store),
    UndisturbedSubscripts ctx d es s →
      subscripts ctx .atOnce (d.settled s) es s = subscripts ctx .late d es s
  | [], d, s, _ => by
    rw [subscripts, subscripts]
    exact bind_congr_from (read_settled rfl) fun _ _ _ => rfl
  | e :: es, d, s, h => by
    rw [UndisturbedSubscripts] at h
    rw [subscripts, subscripts]
    refine bind_congr_from (denote_atOnce e s h.1) fun d' s1 hd' => ?_
    refine bind_congr_from (read_settled (h.2.1 d' s1 hd')) fun i s2 hi => ?_
    obtain ⟨-, rfl⟩ := read_eq_ok hi
    refine bind_congr_from rfl fun j s3 hj => ?_
    obtain ⟨hj, rfl⟩ := read_eq_ok hj
    exact bind_congr_from (subscripts_atOnce es (.value j) s3 (h.2.2 d' s3 hd' j hj))
      fun _ _ _ => rfl

theorem arguments_atOnce : ∀ (qs : List Parameter) (es : List Expr) (s : Store),
    UndisturbedArguments ctx qs es s →
      SameArguments (denoteArguments ctx .atOnce qs es s) (denoteArguments ctx .late qs es s)
  | [], _, _, _ => by
    rw [denoteArguments, denoteArguments]
    exact .ok rfl
    all_goals simp
  | _ :: _, [], _, _ => by
    rw [denoteArguments, denoteArguments]
    exact .ok rfl
    all_goals simp
  | q :: qs, e :: es, s, h => by
    rw [UndisturbedArguments] at h
    rw [denoteArguments, denoteArguments, bind_run, bind_run, denote_atOnce e s h.1]
    cases he : e.denote ctx .late s with
    | error fault => exact .error
    | ok r =>
      obtain ⟨d, s1⟩ := r
      obtain ⟨hes, hspares⟩ := h.2 d s1 he
      have hrest := arguments_atOnce qs es s1 hes
      dsimp only
      cases hq : q.byReference with
      | true => exact hrest.cons fun _ _ _ => rfl
      | false =>
        exact hrest.cons fun ds s2 hds => pass_settled (hspares hq ds s2 hds)

end

theorem holds_atOnce : ∀ (e : Expr) (s : Store), e.UndisturbedCondition ctx s →
    e.holds ctx .atOnce s = e.holds ctx .late s
  | .group _ inner, s, h => by
    rw [UndisturbedCondition] at h
    rw [holds, holds]
    exact holds_atOnce inner s h
  | .not _ operand, s, h => by
    rw [UndisturbedCondition] at h
    rw [holds, holds]
    exact bind_congr_from (holds_atOnce operand s h) fun _ _ _ => rfl
  | .logic _ .or left right, s, h => by
    rw [UndisturbedCondition] at h
    rw [holds, holds]
    refine bind_congr_from (holds_atOnce left s h.1) fun b s1 hb => ?_
    cases b with
    | true => rfl
    | false => exact holds_atOnce right s1 (h.2 false s1 hb (by simp))
  | .logic _ .and left right, s, h => by
    rw [UndisturbedCondition] at h
    rw [holds, holds]
    refine bind_congr_from (holds_atOnce left s h.1) fun b s1 hb => ?_
    cases b with
    | true => exact holds_atOnce right s1 (h.2 true s1 hb (by simp))
    | false => rfl
  | .compare _ relation left right, s, h => by
    rw [UndisturbedCondition] at h
    rw [holds, holds]
    refine bind_congr_from (denote_atOnce left s h.1) fun d s1 hd => ?_
    obtain ⟨hright, hspares⟩ := h.2 d s1 hd
    exact settle_bind_read (denote_atOnce right s1 hright) hspares _
  | .name .., _, _ => rfl
  | .int .., _, _ => rfl
  | .char .., _, _ => rfl
  | .string .., _, _ => rfl
  | .index .., _, _ => rfl
  | .call .., _, _ => rfl
  | .arith .., _, _ => rfl
  | .sign .., _, _ => rfl
  | .missing _, _, _ => rfl

theorem Undisturbed.denote_eq (h : e.Undisturbed ctx s) (reading reading' : Reading) :
    e.denote ctx reading s = e.denote ctx reading' s := by
  cases reading <;> cases reading' <;> simp only [e.denote_atOnce s h]

theorem UndisturbedCondition.holds_eq (h : e.UndisturbedCondition ctx s)
    {r : Except Fault (Bool × Store)} (test : e.holds ctx reading s = r) (reading' : Reading) :
    e.holds ctx reading' s = r := by
  cases reading <;> cases reading' <;> simpa only [e.holds_atOnce s h] using test

end Expr

/-! ### Statements -/

namespace Stmt

section Undisturbed

variable (ctx : Context)

/-- A statement that is run in a memory comes to run one of its parts in another. -/
inductive Visits : Stmt → Store → Stmt → Store → Prop
  | here {stmt : Stmt} {s : Store} : Visits stmt s stmt s
  | first {stmt part : Stmt} {rest : List Stmt} {s s' : Store} (later : Visits stmt s part s') :
      Visits (.block (stmt :: rest)) s part s'
  | rest {stmt part : Stmt} {rest : List Stmt} {s s1 s' : Store}
      (first : stmt.Runs ctx .late s (.finished s1)) (later : Visits (.block rest) s1 part s') :
      Visits (.block (stmt :: rest)) s part s'
  | ifThen {c : Expr} {body part : Stmt} {s s1 s' : Store}
      (test : c.holds ctx .late s = .ok (true, s1)) (later : Visits body s1 part s') :
      Visits (.ifThen c body) s part s'
  | ifElse {c : Expr} {body otherwise part : Stmt} {b : Bool} {s s1 s' : Store}
      (test : c.holds ctx .late s = .ok (b, s1))
      (later : Visits (if b then body else otherwise) s1 part s') :
      Visits (.ifElse c body otherwise) s part s'
  | once {c : Expr} {body part : Stmt} {s s1 s' : Store}
      (test : c.holds ctx .late s = .ok (true, s1)) (later : Visits body s1 part s') :
      Visits (.whileDo c body) s part s'
  | again {c : Expr} {body part : Stmt} {s s1 s2 s' : Store}
      (test : c.holds ctx .late s = .ok (true, s1)) (once : body.Runs ctx .late s1 (.finished s2))
      (later : Visits (.whileDo c body) s2 part s') : Visits (.whileDo c body) s part s'

/-- What a statement itself evaluates, and not its parts, is evaluated undisturbed. -/
def StartsUndisturbed : Stmt → Store → Prop
  | .assign _ target value, s => target.Undisturbed ctx s ∧
      (target.denote ctx .late).After s fun _ s1 => value.Undisturbed ctx s1
  | .call e, s | .returnValue _ e, s => e.Undisturbed ctx s
  | .ifThen c _, s | .ifElse c _ _, s | .whileDo c _, s => c.UndisturbedCondition ctx s
  | _, _ => True

/-- When a statement is run in a memory, no operand is changed before it is used. -/
def Undisturbed (stmt : Stmt) (s : Store) : Prop :=
  ∀ part s', stmt.Visits ctx s part s' → part.StartsUndisturbed ctx s'

end Undisturbed

variable {ctx : Context} {stmt : Stmt} {s : Store} {ending : Ending}

theorem Undisturbed.starts (h : stmt.Undisturbed ctx s) : stmt.StartsUndisturbed ctx s :=
  h stmt s .here

theorem assignment_eq {target : Expr} (h : (Stmt.assign l target value).Undisturbed ctx s)
    (reading reading' : Reading) :
    assignment ctx reading target value s = assignment ctx reading' target value s := by
  obtain ⟨htarget, hvalue⟩ := h.starts
  refine bind_congr_from (htarget.denote_eq reading reading') fun place s1 hplace => ?_
  rw [htarget.denote_eq reading' .late] at hplace
  exact bind_congr_from ((hvalue place s1 hplace).denote_eq reading reading') fun _ _ _ => rfl

theorem result_eq (h : (Stmt.returnValue l value).Undisturbed ctx s) (reading reading' : Reading) :
    result ctx reading value s = result ctx reading' value s :=
  bind_congr_from (Expr.Undisturbed.denote_eq h.starts reading reading') fun _ _ _ => rfl

/-- An undisturbed run comes to the same ending whenever operands are read. -/
theorem Runs.undisturbed (h : stmt.Runs ctx reading s ending) (hu : stmt.Undisturbed ctx s)
    (reading' : Reading) : stmt.Runs ctx reading' s ending := by
  -- the parts are visited by late runs, so the induction gives the runs for all readings
  induction h generalizing reading' with
  | empty => exact .empty
  | assign =>
    rw [assignment_eq hu reading reading']
    exact .assign
  | call =>
    rw [Expr.Undisturbed.denote_eq hu.starts reading reading']
    exact .call
  | nil => exact .nil
  | cons _ _ ihfirst ihothers =>
    have hfirst := ihfirst fun part s' hv => hu part s' (.first hv)
    refine .cons (hfirst reading') (ihothers (fun part s' hv => ?_) reading')
    exact hu part s' (.rest (hfirst .late) hv)
  | consReturned _ ih =>
    exact .consReturned (ih (fun part s' hv => hu part s' (.first hv)) reading')
  | consFailed _ ih => exact .consFailed (ih (fun part s' hv => hu part s' (.first hv)) reading')
  | ifThen test _ ih =>
    have htest := Expr.UndisturbedCondition.holds_eq hu.starts test
    exact .ifThen (htest reading') (ih (fun part s' hv => hu part s' (.ifThen (htest .late) hv)) _)
  | ifThenSkipped test =>
    exact .ifThenSkipped (Expr.UndisturbedCondition.holds_eq hu.starts test reading')
  | ifThenFailed test =>
    exact .ifThenFailed (Expr.UndisturbedCondition.holds_eq hu.starts test reading')
  | ifElse test _ ih =>
    have htest := Expr.UndisturbedCondition.holds_eq hu.starts test
    exact .ifElse (htest reading') (ih (fun part s' hv => hu part s' (.ifElse (htest .late) hv)) _)
  | ifElseFailed test =>
    exact .ifElseFailed (Expr.UndisturbedCondition.holds_eq hu.starts test reading')
  | whileDone test =>
    exact .whileDone (Expr.UndisturbedCondition.holds_eq hu.starts test reading')
  | whileAgain test _ _ ihonce ihagain =>
    have htest := Expr.UndisturbedCondition.holds_eq hu.starts test
    have honce := ihonce fun part s' hv => hu part s' (.once (htest .late) hv)
    refine .whileAgain (htest reading') (honce reading') (ihagain (fun part s' hv => ?_) reading')
    exact hu part s' (.again (htest .late) (honce .late) hv)
  | whileReturned test _ ih =>
    have htest := Expr.UndisturbedCondition.holds_eq hu.starts test
    exact .whileReturned (htest reading')
      (ih (fun part s' hv => hu part s' (.once (htest .late) hv)) reading')
  | whileBodyFailed test _ ih =>
    have htest := Expr.UndisturbedCondition.holds_eq hu.starts test
    exact .whileBodyFailed (htest reading')
      (ih (fun part s' hv => hu part s' (.once (htest .late) hv)) reading')
  | whileFailed test =>
    exact .whileFailed (Expr.UndisturbedCondition.holds_eq hu.starts test reading')
  | returnValue =>
    rw [result_eq hu reading reading']
    exact .returnValue
  | returnNothing => exact .returnNothing

theorem Undisturbed.runs_iff (hu : stmt.Undisturbed ctx s) (reading reading' : Reading) :
    stmt.Runs ctx reading s ending ↔ stmt.Runs ctx reading' s ending :=
  ⟨fun h => h.undisturbed hu reading', fun h => h.undisturbed hu reading⟩

end Stmt

end BlockLang
