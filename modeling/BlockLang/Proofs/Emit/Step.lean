import BlockLang.Emit.Program

/-!
# Single steps of emission

A step of emission either succeeds, with a value and the progress after it, or
fails. Here every step below expressions and statements gets the statement that
says what it does when it succeeds, so that later proofs follow the steps of a
rule of translation and never open a step.
-/

namespace BlockLang

open Progress

variable {operator : Arith} {c : Computed} {exits : Exits} {e left operand right value : Expr}
  {f : FunctionDecl} {as : List Argument} {es : List Expr} {extents : List Nat}
  {qs : List Parameter} {l : Location} {count : Nat} {o offset : Operand} {q : Parameter}
  {relation : Relation} {sign : Sign} {body : Stmt} {function : String} {result : Ty}

/-! ### Two steps in a row -/

section Bind

variable {ε σ α β : Type} {x : EStateM ε σ α} {f : α → EStateM ε σ β} {s s' : σ}

/-- Two steps in a row succeed if the first does and the second does after it. -/
theorem bind_eq_ok_iff {b : β} :
    (x >>= f) s = .ok b s' ↔ ∃ a t, x s = .ok a t ∧ f a t = .ok b s' := by
  change (match x s with | .ok a t => f a t | .error e t => .error e t) = _ ↔ _
  cases x s <;> simp [and_assoc]

/-- Two steps in a row fail if the first does, or the second does after it. -/
theorem bind_eq_error_iff {e : ε} :
    (x >>= f) s = .error e s' ↔
      x s = .error e s' ∨ ∃ a t, x s = .ok a t ∧ f a t = .error e s' := by
  change (match x s with | .ok a t => f a t | .error e t => .error e t) = _ ↔ _
  cases x s <;> simp [and_assoc]

theorem bind_of_ok {a : α} {t : σ} (h : x s = .ok a t) : (x >>= f) s = f a t := by
  change (match x s with | .ok a t => f a t | .error e t => .error e t) = _
  rw [h]

theorem get_run : (get : EStateM ε σ σ) s = .ok s s := rfl

/-- The result of a run, if it succeeds. -/
def result? : EStateM.Result ε σ α → Option α
  | .ok a _ => some a
  | .error _ _ => none

theorem result?_eq_some {r : EStateM.Result ε σ α} {a : α} (h : result? r = some a) :
    ∃ t, r = .ok a t := by
  cases r with
  | ok b t => exact ⟨t, by rw [Option.some.inj h]⟩
  | error e t => cases h

end Bind

/-- The pending jumps for one of the two answers. -/
def Exits.when (exits : Exits) (answer : Bool) : List Nat :=
  if answer then exits.whenTrue else exits.whenFalse

/-- The answer of the left side that settles a condition. -/
def Connective.settles : Connective → Bool
  | .or => true
  | .and => false

/-- The exits of both sides of a connective, without those of the left side that lead to the
right side. -/
def Exits.join (left : Exits) : Connective → Exits → Exits
  | .or, right => ⟨left.whenTrue ++ right.whenTrue, right.whenFalse⟩
  | .and, right => ⟨right.whenTrue, left.whenFalse ++ right.whenFalse⟩

/-! ### Rules that pass a result on -/

namespace Emit

variable {p p' : Progress}

theorem expression_group_ok {inner : Expr} (h : expression (.group l inner) p = .ok c p') :
    ∃ x, expression inner p = .ok x p' ∧ c = x.asValue := by
  rw [expression] at h
  obtain ⟨x, q, hx, h1⟩ := bind_eq_ok_iff.mp h
  cases h1
  exact ⟨x, hx, rfl⟩

theorem condition_not_ok (h : condition (.not l operand) p = .ok exits p') :
    ∃ x, condition operand p = .ok x p' ∧ exits = ⟨x.whenFalse, x.whenTrue⟩ := by
  rw [condition] at h
  obtain ⟨x, q, hx, h1⟩ := bind_eq_ok_iff.mp h
  cases h1
  exact ⟨x, hx, rfl⟩

theorem statement_call_ok {pending : List Nat}
    (h : statement function result (.call e) p = .ok pending p') :
    callForEffect e p = .ok () p' ∧ pending = [] := by
  rw [statement] at h
  obtain ⟨_, p1, hcall, h1⟩ := bind_eq_ok_iff.mp h
  cases h1
  exact ⟨hcall, rfl⟩

end Emit

namespace Progress

/-- Progress with other code. -/
def withCode (p : Progress) (c : Code) : Progress := { p with code := c }

/-- Progress after a quad has been appended and noted. -/
def appended (p : Progress) (q : Quad) : Progress :=
  { p with events := p.events.push (.pushed p.code.next q), code := p.code.push q }

@[simp] theorem withCode_code (p : Progress) (c : Code) : (p.withCode c).code = c := rfl

@[simp] theorem withCode_env (p : Progress) (c : Code) : (p.withCode c).env = p.env := rfl

@[simp] theorem appended_code (p : Progress) (q : Quad) :
    (p.appended q).code = p.code.push q := rfl

@[simp] theorem appended_env (p : Progress) (q : Quad) : (p.appended q).env = p.env := rfl

/-- Progress after quads have been appended one after the other. -/
def appendedAll (p : Progress) (qs : List Quad) : Progress := qs.foldl appended p

theorem appendedAll_append (p : Progress) (qs rs : List Quad) :
    p.appendedAll (qs ++ rs) = (p.appendedAll qs).appendedAll rs := List.foldl_append

theorem temps_appendedAll (p : Progress) (qs : List Quad) :
    (p.appendedAll qs).code.temps = p.code.temps := by
  induction qs generalizing p with
  | nil => rfl
  | cons q qs ih => exact ih (p.appended q)

/-- Appending quads and taking a temporary commute. -/
theorem appendedAll_newTemp (p : Progress) (qs : List Quad) (ty : Ty) :
    (p.withCode (p.code.newTemp ty)).appendedAll qs =
      (p.appendedAll qs).withCode ((p.appendedAll qs).code.newTemp ty) := by
  induction qs generalizing p with
  | nil => rfl
  | cons q qs ih => exact ih (p.appended q)

end Progress

namespace Emit

variable {p p' : Progress}

/-! ### Steps that cannot fail -/

theorem append_run (op : Opcode) (a b o : Option Operand) :
    append op a b o p = .ok () (p.appended ⟨op, a, b, o⟩) := rfl

theorem newTemp_run (ty : Ty) :
    newTemp ty p = .ok p.code.temps.size (p.withCode (p.code.newTemp ty)) := rfl

theorem next_run : next p = .ok p.code.next p := rfl

theorem mark_run (i : Nat) : mark i p = .ok () (p.withCode (p.code.mark i)) := rfl

theorem patchHere_run (pending : List Nat) :
    patchHere pending p = .ok () (p.withCode (p.code.patch pending p.code.next)) := rfl

theorem pendingJump_run :
    pendingJump p = .ok p.code.next (p.appended ⟨.jump, none, none, some .pending⟩) := rfl

/-- The quad of an operation on two operands, into a given temporary. -/
def arithQuad (operator : Arith) (left right : Operand) (n : Nat) : Quad :=
  ⟨.arith operator, some left, some right, some (.temp n)⟩

theorem arithmetic_run (operator : Arith) (left right : Operand) :
    arithmetic operator left right p =
      .ok (.temp p.code.temps.size) ((p.withCode (p.code.newTemp .int)).appended
        (arithQuad operator left right p.code.temps.size)) := rfl

/-- The quad of a cell or a row of an array. -/
def elementQuad (array offset : Operand) (n : Nat) : Quad :=
  ⟨.array, some array, some offset, some (.cell n)⟩

theorem element_run (array : Computed) (extents : List Nat) (offset : Operand) :
    element array extents offset p =
      .ok ⟨⟨array.shape.ty, extents⟩, .cell p.code.temps.size, true⟩
        ((p.withCode ((p.code.newTemp .int).describe p.code.temps.size
          ⟨array.shape.ty, extents.length⟩)).appended
            (elementQuad array.operand offset p.code.temps.size)) := rfl

/-- The label by which a call names its function. -/
def calleeLabel (f : FunctionDecl) (scope : Int) : FunctionLabel :=
  if f.isStandard then .standard f.name else ⟨f.name, some scope, f.serial⟩

def argumentQuad (a : Argument) : Quad :=
  ⟨.par, some a.value, some (if a.byReference then .byReference else .byValue), none⟩

/-- The quad that says where the result of a call goes. -/
def destinationQuad (n : Nat) : Quad := ⟨.par, some (.temp n), some .returnDestination, none⟩

def callQuadOf (label : FunctionLabel) : Quad := ⟨.call, none, none, some (.function label)⟩

theorem callQuad_run (f : FunctionDecl) (scope : Int) :
    callQuad f scope p = .ok () (p.appended (callQuadOf (calleeLabel f scope))) := rfl

theorem passArguments_run (arguments : List Argument) :
    passArguments arguments p = .ok () (p.appendedAll (arguments.map argumentQuad)) := by
  induction arguments generalizing p with
  | nil => rfl
  | cons a as ih =>
    change (append _ _ _ _ >>= fun _ => passArguments as) p = _
    rw [bind_of_ok (append_run _ _ _ _), ih]
    rfl

/-- The quads of a call with a result, the destination behind the arguments. -/
def resultCallQuads (arguments : List Argument) (n : Nat) (label : FunctionLabel) : List Quad :=
  arguments.map argumentQuad ++ [destinationQuad n, callQuadOf label]

/-- A call with a result takes a new temporary for it. That the temporary is taken
after the arguments have been passed makes no difference. -/
theorem invoke_result (h : f.result ≠ .nothing) (scope : Int) (arguments : List Argument) :
    invoke f scope arguments p =
      .ok (some (.value f.result (.temp p.code.temps.size)))
        ((p.withCode (p.code.newTemp f.result)).appendedAll
          (resultCallQuads arguments p.code.temps.size (calleeLabel f scope))) := by
  unfold invoke
  rw [bind_of_ok (passArguments_run arguments), if_neg h, bind_of_ok (newTemp_run _),
    bind_of_ok (append_run _ _ _ _), bind_of_ok (callQuad_run f scope),
    ← appendedAll_newTemp, temps_appendedAll, resultCallQuads,
    appendedAll_append]
  rfl

def effectCallQuads (arguments : List Argument) (label : FunctionLabel) : List Quad :=
  arguments.map argumentQuad ++ [callQuadOf label]

theorem invoke_nothing (h : f.result = .nothing) (scope : Int) (arguments : List Argument) :
    invoke f scope arguments p =
      .ok none (p.appendedAll (effectCallQuads arguments (calleeLabel f scope))) := by
  unfold invoke
  rw [bind_of_ok (passArguments_run arguments), if_pos h, bind_of_ok (callQuad_run f scope),
    effectCallQuads, appendedAll_append]
  rfl

/-! ### Names -/

/-- A name that can be computed stands for a variable or a parameter. -/
theorem named_ok {x : String} (h : named l x p = .ok c p') :
    p' = p ∧ ∃ b, p.env.find? x = some b ∧
      ((∃ v, b.declaration = .var v ∧ c = ⟨⟨v.ty, v.extents⟩, .name x, true⟩) ∨
        ∃ q, b.declaration = .param q ∧ c = ⟨q.shape, .name x, true⟩) := by
  unfold named at h
  rw [bind_of_ok (show find? x p = .ok (p.env.find? x) p from rfl)] at h
  cases hb : p.env.find? x with
  | none => simp [hb] at h; cases h
  | some b =>
    simp only [hb] at h
    cases hd : b.declaration with
    | var v =>
      simp only [hd] at h
      cases h
      exact ⟨rfl, b, rfl, .inl ⟨v, hd, rfl⟩⟩
    | param q =>
      simp only [hd] at h
      cases h
      exact ⟨rfl, b, rfl, .inr ⟨q, hd, rfl⟩⟩
    | fn f => simp only [hd] at h; cases h

/-! ### Arrays -/

theorem checkSubscripts_ok {array : Computed} (h : checkSubscripts l array count p = .ok () p') :
    p' = p ∧ array.shape.extents ≠ [] ∧ count ≤ array.shape.extents.length := by
  unfold checkSubscripts at h
  split at h
  · cases h
  · rename_i hne
    dsimp only at h
    split at h
    · cases h
    · rename_i hlt
      cases h
      refine ⟨rfl, fun hnil => hne ?_, by omega⟩
      rw [hnil]
      rfl

theorem subscript_ok (h : subscript l c p = .ok o p') :
    p' = p ∧ c.isScalar .int ∧ o = c.operand := by
  unfold subscript at h
  split at h
  · rename_i hc
    cases h
    exact ⟨rfl, hc, rfl⟩
  · cases h

theorem cellCount_ok {n : Nat} (h : cellCount l n p = .ok o p') :
    p' = p ∧ n < offsetLimit ∧ o = .int (Int32.ofNat n) := by
  unfold cellCount at h
  split at h
  · rename_i hn
    cases h
    exact ⟨rfl, hn, rfl⟩
  · cases h

/-- The first cell of a row has its number already when no extent is left, and is
otherwise computed by one multiplication. -/
theorem rowStart_ok (h : rowStart l offset extents p = .ok o p') :
    (extents = [] ∧ o = offset ∧ p' = p) ∨
      ∃ n, rowCells? extents = some n ∧ n < offsetLimit ∧
        arithmetic .mul offset (.int (Int32.ofNat n)) p = .ok o p' := by
  unfold rowStart at h
  split at h
  · rename_i he
    cases h
    exact .inl ⟨List.isEmpty_iff.mp he, rfl, rfl⟩
  · cases hn : rowCells? extents with
    | none => rw [hn] at h; cases h
    | some n =>
      rw [hn] at h
      obtain ⟨m, q, hm, h⟩ := bind_eq_ok_iff.mp h
      obtain ⟨rfl, hlt, rfl⟩ := cellCount_ok hm
      exact .inr ⟨n, rfl, hlt, h⟩

/-! ### Calls -/

theorem callee_ok {f : String} {isStatement : Bool} {g : FunctionDecl} {scope : Int}
    (h : callee l f count isStatement p = .ok (g, scope) p') :
    p' = p ∧ p.env.find? f = some ⟨.fn g, scope⟩ ∧ count = g.parameters.length ∧
      (isStatement = true ↔ g.result = .nothing) := by
  unfold callee at h
  rw [bind_of_ok (show find? f p = .ok (p.env.find? f) p from rfl)] at h
  cases hb : p.env.find? f with
  | none => rw [hb] at h; cases h
  | some b =>
    rw [hb] at h
    obtain ⟨d, s⟩ := b
    cases d with
    | var v => cases h
    | param q => cases h
    | fn g' =>
      dsimp only at h
      split at h
      · cases h
      split at h
      · cases h
      split at h
      · cases h
      · rename_i h1 h2 h3
        cases h
        refine ⟨rfl, rfl, by simpa using h3, ?_⟩
        cases isStatement <;> simp_all

theorem checkArgument_ok (h : checkArgument f q l c p = .ok () p') :
    p' = p ∧ c.shape.ty = q.ty ∧ extentsMatch q c.shape.extents ∧
      (q.byReference → c.assignable) := by
  unfold checkArgument at h
  split at h
  · cases h
  dsimp only at h
  split at h
  · cases h
  · rename_i h1 h2
    cases h
    simp only [ne_eq, Bool.not_eq_true, not_or, Decidable.not_not, Bool.not_eq_false] at h1
    exact ⟨rfl, h1.1, h1.2, fun hr => by simpa [hr] using h2⟩

/-! ### Operators -/

theorem arithOf_ok {left right : Computed} (h : arithOf l operator left right p = .ok c p') :
    left.isScalar .int ∧ right.isScalar .int ∧
      ∃ o, c = .value .int o ∧ arithmetic operator left.operand right.operand p = .ok o p' := by
  unfold arithOf at h
  split at h
  · rename_i hs
    obtain ⟨o, q, ho, h⟩ := bind_eq_ok_iff.mp h
    cases h
    exact ⟨hs.1, hs.2, o, rfl, ho⟩
  · cases h

theorem signOf_ok {operand : Computed} (h : signOf l sign operand p = .ok c p') :
    operand.isScalar .int ∧
      ((sign = .plus ∧ c = operand.asValue ∧ p' = p) ∨
        sign = .minus ∧ ∃ o, c = .value .int o ∧
          arithmetic .mul operand.operand (.int (-1)) p = .ok o p') := by
  unfold signOf at h
  split at h
  · rename_i hs
    split at h
    · obtain ⟨o, q, ho, h⟩ := bind_eq_ok_iff.mp h
      cases h
      exact ⟨hs, .inr ⟨rfl, o, rfl, ho⟩⟩
    · cases h
      exact ⟨hs, .inl ⟨rfl, rfl, rfl⟩⟩
  · cases h

def compareQuad (relation : Relation) (left right : Operand) : Quad :=
  ⟨.compare relation, some left, some right, some .pending⟩

/-- The quad of a jump that is not led anywhere yet. -/
def jumpQuad : Quad := ⟨.jump, none, none, some .pending⟩

theorem comparison_ok {left right : Computed}
    (h : comparison l relation left right p = .ok exits p') :
    left.shape.extents = [] ∧ left.shape = right.shape ∧ left.shape.ty ≠ .nothing ∧
      exits = ⟨[p.code.next], [p.code.next + 1]⟩ ∧
      p' = (p.appended (compareQuad relation left.operand right.operand)).appended jumpQuad := by
  unfold comparison at h
  split at h
  · rename_i hs
    cases h
    refine ⟨hs.1, hs.2.1, hs.2.2, ?_, rfl⟩
    simp [Code.next, Code.push]
  · cases h

/-! ### Statements without statements inside -/

def assignQuad (value target : Operand) : Quad := ⟨.assign, some value, none, some target⟩

def returnQuad : Quad := ⟨.ret, none, none, none⟩

theorem assign_ok {target value : Computed} (h : assign l target value p = .ok () p') :
    target.assignable ∧ target.shape.extents = [] ∧ target.shape = value.shape ∧
      p' = p.appended (assignQuad value.operand target.operand) := by
  unfold assign at h
  split at h
  · rename_i hs
    cases h
    exact ⟨hs.1, hs.2.1, hs.2.2, rfl⟩
  · cases h

/-- A call that stands as a statement is a call of a function without a result. -/
theorem callForEffect_ok (h : callForEffect e p = .ok () p') :
    ∃ l f arguments g scope as q, e = .call l f arguments ∧
      callee l f arguments.length true p = .ok (g, scope) p ∧
      argumentsOf g g.parameters arguments p = .ok as q ∧
      p' = q.appendedAll (effectCallQuads as (calleeLabel g scope)) := by
  cases e with
  | call l f arguments =>
    rw [callForEffect] at h
    obtain ⟨⟨g, scope⟩, q, hg, hcall⟩ := bind_eq_ok_iff.mp h
    obtain ⟨rfl, -, -, hresult⟩ := callee_ok hg
    obtain ⟨as, r, has, hinvoke⟩ := bind_eq_ok_iff.mp hcall
    rw [bind_of_ok (invoke_nothing (hresult.mp rfl) scope as)] at hinvoke
    cases hinvoke
    exact ⟨l, f, arguments, g, scope, as, r, rfl, hg, has, rfl⟩
  | _ => cases h

theorem returnValue_ok (h : returnValue function result l value p = .ok () p') :
    result ≠ .nothing ∧ ∃ c q, expression value p = .ok c q ∧ c.isScalar result ∧
      p' = (q.appended (assignQuad c.operand .returnValue)).appended returnQuad := by
  unfold returnValue at h
  split at h
  · cases h
  rename_i hr
  obtain ⟨c, q, hc, h⟩ := bind_eq_ok_iff.mp h
  split at h
  · rename_i hs
    cases h
    exact ⟨hr, c, q, hc, hs, rfl⟩
  · cases h

theorem returnNothing_ok (h : returnNothing function result l p = .ok () p') :
    result = .nothing ∧ p' = p.appended returnQuad := by
  unfold returnNothing at h
  split at h
  · rename_i hr
    cases h
    exact ⟨hr, rfl⟩
  · cases h

/-! ### Rules of translation

Each rule that has parts is split into the translations of its parts, in order. -/

theorem expression_index_ok {base first : Expr} {more : List Expr}
    (h : expression (.index l base first more) p = .ok c p') :
    ∃ array p1 i p2 offset p3 start p4, expression base p = .ok array p1 ∧
      array.shape.extents ≠ [] ∧ more.length + 1 ≤ array.shape.extents.length ∧
      expression first p1 = .ok i p2 ∧ i.isScalar .int ∧
      rowOffset l (array.shape.extents.drop 1) i.operand more p2 = .ok offset p3 ∧
      rowStart l offset (array.shape.extents.drop (more.length + 1)) p3 = .ok start p4 ∧
      element array (array.shape.extents.drop (more.length + 1)) start p4 = .ok c p' := by
  rw [expression] at h
  obtain ⟨array, p1, harray, h1⟩ := bind_eq_ok_iff.mp h
  obtain ⟨_, q1, hcheck, h2⟩ := bind_eq_ok_iff.mp h1
  obtain ⟨rfl, hne, hle⟩ := checkSubscripts_ok hcheck
  obtain ⟨i, p2, hi, h3⟩ := bind_eq_ok_iff.mp h2
  obtain ⟨o, q2, ho, h4⟩ := bind_eq_ok_iff.mp h3
  obtain ⟨rfl, hs, rfl⟩ := subscript_ok ho
  obtain ⟨offset, p3, hoff, h5⟩ := bind_eq_ok_iff.mp h4
  obtain ⟨start, p4, hstart, h6⟩ := bind_eq_ok_iff.mp h5
  exact ⟨array, _, i, _, offset, p3, start, p4, harray, hne, hle, hi, hs, hoff, hstart, h6⟩

theorem rowOffset_cons_ok (h : rowOffset l extents offset (e :: es) p = .ok o p') :
    ∃ i p1 scaled p2 sum p3, expression e p = .ok i p1 ∧ i.isScalar .int ∧
      extents.headD 0 < offsetLimit ∧
      arithmetic .mul offset (.int (Int32.ofNat (extents.headD 0))) p1 = .ok scaled p2 ∧
      arithmetic .add scaled i.operand p2 = .ok sum p3 ∧
      rowOffset l extents.tail sum es p3 = .ok o p' := by
  rw [rowOffset] at h
  obtain ⟨i, p1, hi, h1⟩ := bind_eq_ok_iff.mp h
  obtain ⟨a, q1, ha, h2⟩ := bind_eq_ok_iff.mp h1
  obtain ⟨rfl, hs, rfl⟩ := subscript_ok ha
  obtain ⟨n, q2, hn, h3⟩ := bind_eq_ok_iff.mp h2
  obtain ⟨rfl, hlt, rfl⟩ := cellCount_ok hn
  obtain ⟨scaled, p2, hscaled, h4⟩ := bind_eq_ok_iff.mp h3
  obtain ⟨sum, p3, hsum, h5⟩ := bind_eq_ok_iff.mp h4
  exact ⟨i, _, scaled, p2, sum, p3, hi, hs, hlt, hscaled, hsum, h5⟩

theorem argumentsOf_cons_ok (h : argumentsOf f (q :: qs) (e :: es) p = .ok as p') :
    ∃ c p1 rest, expression e p = .ok c p1 ∧ c.shape.ty = q.ty ∧
      extentsMatch q c.shape.extents ∧ (q.byReference → c.assignable) ∧
      argumentsOf f qs es p1 = .ok rest p' ∧ as = ⟨c.operand, q.byReference⟩ :: rest := by
  rw [argumentsOf] at h
  obtain ⟨c, p1, hc, h1⟩ := bind_eq_ok_iff.mp h
  obtain ⟨_, q1, hcheck, h2⟩ := bind_eq_ok_iff.mp h1
  obtain ⟨rfl, hty, hext, href⟩ := checkArgument_ok hcheck
  obtain ⟨rest, p2, hrest, h3⟩ := bind_eq_ok_iff.mp h2
  cases h3
  exact ⟨c, _, rest, hc, hty, hext, href, hrest, rfl⟩

theorem argumentsOf_nil_ok (hnil : qs = [] ∨ es = []) (h : argumentsOf f qs es p = .ok as p') :
    p' = p ∧ as = [] := by
  cases es with
  | nil =>
    cases qs with
    | nil => cases h; exact ⟨rfl, rfl⟩
    | cons q qs => cases h; exact ⟨rfl, rfl⟩
  | cons e es =>
    obtain rfl := hnil.resolve_right nofun
    cases h
    exact ⟨rfl, rfl⟩

theorem expression_call_ok {f : String} {arguments : List Expr}
    (h : expression (.call l f arguments) p = .ok c p') :
    ∃ g scope as q, callee l f arguments.length false p = .ok (g, scope) p ∧
      argumentsOf g g.parameters arguments p = .ok as q ∧
      c = .value g.result (.temp q.code.temps.size) ∧
      p' = (q.withCode (q.code.newTemp g.result)).appendedAll
        (resultCallQuads as q.code.temps.size (calleeLabel g scope)) := by
  rw [expression] at h
  obtain ⟨⟨g, scope⟩, q1, hg, h1⟩ := bind_eq_ok_iff.mp h
  obtain ⟨rfl, -, -, hresult⟩ := callee_ok hg
  obtain ⟨as, q, has, h2⟩ := bind_eq_ok_iff.mp h1
  rw [bind_of_ok (invoke_result (mt hresult.mpr nofun) scope as)] at h2
  cases h2
  exact ⟨g, scope, as, q, hg, has, rfl, rfl⟩

theorem expression_arith_ok (h : expression (.arith l operator left right) p = .ok c p') :
    ∃ a p1 b p2 o, expression left p = .ok a p1 ∧ expression right p1 = .ok b p2 ∧
      a.isScalar .int ∧ b.isScalar .int ∧ c = .value .int o ∧
      arithmetic operator a.operand b.operand p2 = .ok o p' := by
  rw [expression] at h
  obtain ⟨a, p1, ha, h1⟩ := bind_eq_ok_iff.mp h
  obtain ⟨b, p2, hb, h2⟩ := bind_eq_ok_iff.mp h1
  obtain ⟨hsa, hsb, o, hc, ho⟩ := arithOf_ok h2
  exact ⟨a, p1, b, p2, o, ha, hb, hsa, hsb, hc, ho⟩

theorem expression_sign_ok (h : expression (.sign l sign operand) p = .ok c p') :
    ∃ x p1, expression operand p = .ok x p1 ∧ x.isScalar .int ∧
      ((sign = .plus ∧ c = x.asValue ∧ p' = p1) ∨
        sign = .minus ∧ ∃ o, c = .value .int o ∧
          arithmetic .mul x.operand (.int (-1)) p1 = .ok o p') := by
  rw [expression] at h
  obtain ⟨x, p1, hx, h1⟩ := bind_eq_ok_iff.mp h
  exact ⟨x, p1, hx, signOf_ok h1⟩

theorem condition_logic_ok {k : Connective}
    (h : condition (.logic l k left right) p = .ok exits p') :
    ∃ a p1 b, condition left p = .ok a p1 ∧
      condition right (p1.withCode (p1.code.patch (a.when !k.settles) p1.code.next)) = .ok b p' ∧
      exits = a.join k b := by
  cases k <;>
  · rw [condition] at h
    obtain ⟨a, p1, ha, h1⟩ := bind_eq_ok_iff.mp h
    rw [bind_of_ok (patchHere_run _)] at h1
    obtain ⟨b, p2, hb, h2⟩ := bind_eq_ok_iff.mp h1
    cases h2
    exact ⟨a, p1, b, ha, hb, rfl⟩

theorem condition_compare_ok (h : condition (.compare l relation left right) p = .ok exits p') :
    ∃ a p1 b p2, expression left p = .ok a p1 ∧ expression right p1 = .ok b p2 ∧
      comparison l relation a b p2 = .ok exits p' := by
  rw [condition] at h
  obtain ⟨a, p1, ha, h1⟩ := bind_eq_ok_iff.mp h
  obtain ⟨b, p2, hb, h2⟩ := bind_eq_ok_iff.mp h1
  exact ⟨a, p1, b, p2, ha, hb, h2⟩

/-- Induction over a condition that has been translated. -/
theorem condition_induction
    {motive : ∀ {e p exits p'}, condition e p = .ok exits p' → Prop}
    (group : ∀ {l e p exits p'} {h : condition e p = .ok exits p'}
      {h' : condition (.group l e) p = .ok exits p'}, motive h → motive h')
    (not : ∀ {l e p exits p'} {h : condition e p = .ok exits p'}
      {h' : condition (.not l e) p = .ok ⟨exits.whenFalse, exits.whenTrue⟩ p'},
      motive h → motive h')
    (logic : ∀ {l k left right p a p1 b p'} (ha : condition left p = .ok a p1)
      (hb : condition right (p1.withCode (p1.code.patch (a.when !k.settles) p1.code.next)) =
        .ok b p') {h : condition (.logic l k left right) p = .ok (a.join k b) p'},
      motive ha → motive hb → motive h)
    (compare : ∀ {l relation left right p exits p'}
      (h : condition (.compare l relation left right) p = .ok exits p'), motive h) :
    ∀ {e p exits p'} (h : condition e p = .ok exits p'), motive h
  | .group l inner, _, _, _, h =>
    group (h := by rwa [condition] at h) (condition_induction group not logic compare _)
  | .not l operand, _, _, _, h => by
    obtain ⟨x, hx, rfl⟩ := condition_not_ok h
    exact not (condition_induction group not logic compare hx)
  | .logic l k left right, _, _, _, h => by
    obtain ⟨a, p1, b, ha, hb, rfl⟩ := condition_logic_ok h
    exact logic ha hb (condition_induction group not logic compare ha)
      (condition_induction group not logic compare hb)
  | .compare .., _, _, _, h => compare h
  | .missing _, _, _, _, h | .name .., _, _, _, h | .int .., _, _, _, h | .char .., _, _, _, h
  | .string .., _, _, _, h | .index .., _, _, _, h | .call .., _, _, _, h | .arith .., _, _, _, h
  | .sign .., _, _, _, h => by cases h

section Statement

variable {function : String} {result : Ty} {pending : List Nat}

theorem statement_assign_ok {target : Expr}
    (h : statement function result (.assign l target value) p = .ok pending p') :
    ∃ a p1 b p2, expression target p = .ok a p1 ∧ expression value p1 = .ok b p2 ∧
      assign l a b p2 = .ok () p' ∧ pending = [] := by
  rw [statement] at h
  obtain ⟨a, p1, ha, h1⟩ := bind_eq_ok_iff.mp h
  obtain ⟨b, p2, hb, h2⟩ := bind_eq_ok_iff.mp h1
  obtain ⟨_, p3, hassign, h3⟩ := bind_eq_ok_iff.mp h2
  cases h3
  exact ⟨a, p1, b, p2, ha, hb, hassign, rfl⟩

theorem statement_ifThen_ok {c : Expr}
    (h : statement function result (.ifThen c body) p = .ok pending p') :
    ∃ exits p1 p2, condition c p = .ok exits p1 ∧
      statement function result body
        (p1.withCode (p1.code.patch exits.whenTrue p1.code.next)) = .ok pending p2 ∧
      p' = p2.withCode (p2.code.patch exits.whenFalse p2.code.next) := by
  rw [statement] at h
  obtain ⟨exits, p1, hc, h1⟩ := bind_eq_ok_iff.mp h
  rw [bind_of_ok (patchHere_run _)] at h1
  obtain ⟨l, p2, hbody, h2⟩ := bind_eq_ok_iff.mp h1
  cases h2
  exact ⟨exits, p1, p2, hc, hbody, rfl⟩

theorem statement_ifElse_ok {c : Expr} {otherwise : Stmt}
    (h : statement function result (.ifElse c body otherwise) p = .ok pending p') :
    ∃ exits p1 l p2 l' p3, condition c p = .ok exits p1 ∧
      statement function result body
        (p1.withCode (p1.code.patch exits.whenTrue p1.code.next)) = .ok l p2 ∧
      p3 = p2.appended jumpQuad ∧
      statement function result otherwise
        (p3.withCode (p3.code.patch exits.whenFalse p3.code.next)) = .ok l' p' ∧
      pending = l ++ p2.code.next :: l' := by
  rw [statement] at h
  obtain ⟨exits, p1, hc, h1⟩ := bind_eq_ok_iff.mp h
  rw [bind_of_ok (patchHere_run _)] at h1
  obtain ⟨l, p2, hbody, h2⟩ := bind_eq_ok_iff.mp h1
  rw [bind_of_ok pendingJump_run, bind_of_ok (patchHere_run _)] at h2
  obtain ⟨l', p3, helse, h3⟩ := bind_eq_ok_iff.mp h2
  cases h3
  exact ⟨exits, p1, l, p2, l', _, hc, hbody, rfl, helse, rfl⟩

theorem statement_whileDo_ok {c : Expr}
    (h : statement function result (.whileDo c body) p = .ok pending p') :
    ∃ exits p1 l p2, condition c (p.withCode (p.code.mark p.code.next)) = .ok exits p1 ∧
      statement function result body
        (p1.withCode (p1.code.patch exits.whenTrue p1.code.next)) = .ok l p2 ∧
      p' = (p2.withCode (p2.code.patch l p.code.next)).appended
        ⟨.jump, none, none, some (.target p.code.next)⟩ ∧
      pending = exits.whenFalse := by
  rw [statement, bind_of_ok next_run, bind_of_ok (mark_run _)] at h
  obtain ⟨exits, p1, hc, h1⟩ := bind_eq_ok_iff.mp h
  rw [bind_of_ok (patchHere_run _)] at h1
  obtain ⟨l, p2, hbody, h2⟩ := bind_eq_ok_iff.mp h1
  cases h2
  exact ⟨exits, p1, l, p2, hc, hbody, rfl, rfl⟩

theorem statement_returnValue_ok
    (h : statement function result (.returnValue l value) p = .ok pending p') :
    returnValue function result l value p = .ok () p' ∧ pending = [] := by
  rw [statement] at h
  obtain ⟨_, p1, hret, h1⟩ := bind_eq_ok_iff.mp h
  cases h1
  exact ⟨hret, rfl⟩

theorem statement_returnNothing_ok
    (h : statement function result (.returnNothing l) p = .ok pending p') :
    returnNothing function result l p = .ok () p' ∧ pending = [] := by
  rw [statement] at h
  obtain ⟨_, p1, hret, h1⟩ := bind_eq_ok_iff.mp h
  cases h1
  exact ⟨hret, rfl⟩

theorem statements_cons_ok {s : Stmt} {ss : List Stmt} {l : List Nat}
    (h : statements function result l (s :: ss) p = .ok pending p') :
    ∃ l' p1, statement function result s
        (p.withCode (p.code.patch l p.code.next)) = .ok l' p1 ∧
      statements function result l' ss p1 = .ok pending p' := by
  rw [statements, bind_of_ok (patchHere_run _)] at h
  obtain ⟨l', p1, hs, h1⟩ := bind_eq_ok_iff.mp h
  exact ⟨l', p1, hs, h1⟩

end Statement

end Emit

/-! ### Quads by their numbers -/

namespace Lower

open List

theorem forM_range' {f : Nat → Lower Unit} {g : Quad × Nat → Lower Unit} :
    ∀ (qs : List Quad) (n : Nat), (∀ i q, qs[i]? = some q → f (n + i) = g (q, n + i)) →
      (range' n qs.length).forM f = (qs.zipIdx n).forM g
  | [], _, _ => rfl
  | q :: qs, n, h => by
    have hrest := forM_range' qs (n + 1) fun i r hr => by
      rw [Nat.add_assoc, Nat.add_comm 1]
      exact h (i + 1) r hr
    rw [length_cons, range'_succ, zipIdx_cons, List.forM, List.forM, hrest]
    exact congrArg (· >>= _) (h 0 q rfl)

/-- No quad is missing between those that have been lowered and the end of the code. -/
theorem body_eq (site : FunctionSite) (a : Assembly) : Lower.body site a =
    (do ((site.code.quads.toList.drop a.quadsDone).zipIdx a.quadsDone).forM
          fun (q, n) => numbered site q n
        modify fun a => { a with quadsDone := site.code.next, tempsDone := site.code.temps.size } :
      Lower Unit) a := by
  have hlength : (site.code.quads.toList.drop a.quadsDone).length =
      site.code.next - a.quadsDone := by
    rw [length_drop, Array.length_toList]
    rfl
  unfold Lower.body
  rw [bind_of_ok get_run, ← hlength, forM_range' _ _ fun i q hq => ?_]
  rw [getElem?_drop, Array.getElem?_toList] at hq
  rw [hq]

end Lower

end BlockLang
