import BlockLang.Proofs.Code.Growth
import BlockLang.Proofs.Emit.Computation

/-!
# What expressions, conditions and statements emit

Translating an expression, a condition or a statement lets the code grow and changes nothing else
but the notes. An operand that an expression was computed to has a value, an address or both, as
its shape and its use demand.
-/

namespace BlockLang

open List Progress

variable {c : Computed} {as : List Argument} {qs : List Quad} {l : Location} {n : Nat} {q : Quad}
  {ty : Ty}

namespace Progress

/-- The code has grown, with a list of pending jumps, and nothing but the notes
has changed beside it. -/
structure Emits (lo : Nat) (p p' : Progress) (pending : List Nat) : Prop where
  outside : p' = { p with code := p'.code, events := p'.events }
  grows : p.code.Grows p.env lo p'.code pending

theorem code_appendedAll (p : Progress) (qs : List Quad) :
    (p.appendedAll qs).code = p.code.pushAll qs := by
  induction qs generalizing p with
  | nil => exact Code.pushAll_nil.symm
  | cons q qs ih => exact (ih (p.appended q)).trans (Code.pushAll_cons qs).symm

private theorem exists_appendedAll (p : Progress) (qs : List Quad) :
    ∃ events, p.appendedAll qs = { p with code := (p.appendedAll qs).code, events } := by
  induction qs generalizing p with
  | nil => exact ⟨p.events, rfl⟩
  | cons q qs ih => exact ih (p.appended q)

namespace Emits

variable {lo : Nat} {p p1 p2 : Progress} {l l' : List Nat}

theorem refl (lo : Nat) (p : Progress) : Emits lo p p [] := ⟨rfl, .refl _ _ _⟩

variable (h : Emits lo p p1 l)

include h

theorem env_eq : p1.env = p.env := by rw [h.outside]

theorem assembly_eq : p1.assembly = p.assembly := by rw [h.outside]

theorem perm (hl : l.Perm l') : Emits lo p p1 l' := ⟨h.outside, h.grows.perm hl⟩

theorem trans (h' : Emits lo p1 p2 l') : Emits lo p p2 (l ++ l') where
  outside := by
    rw [h'.outside, h.outside]
  grows := h.grows.trans (h.env_eq ▸ h'.grows)

omit h in
theorem trans_nil (h : Emits lo p p1 []) (h' : Emits lo p1 p2 l) : Emits lo p p2 l := h.trans h'

/-- Temporaries are never taken back. -/
theorem le_size (hn : n ≤ p.code.temps.size) : n ≤ p1.code.temps.size :=
  Nat.le_trans hn h.grows.ext.size_le

theorem withCode {c : Code} (hc : p.code.Grows p.env lo c l') : Emits lo p (p1.withCode c) l' where
  outside := by
    have := h.outside
    rw [Progress.withCode, this]
  grows := hc

theorem newTemp (ty : Ty) : Emits lo p (p1.withCode (p1.code.newTemp ty)) l :=
  h.withCode (h.grows.extend (.newTemp _ _) rfl fun _ => .rfl)

theorem newCell (ty : Ty) (info : CellInfo) :
    Emits lo p (p1.withCode ((p1.code.newTemp ty).describe p1.code.temps.size info)) l :=
  h.withCode (h.grows.extend (.newCell _ _ _) rfl fun _ => .rfl)

theorem patch {a b : List Nat} {t : Nat} (hl : l.Perm (a ++ b))
    (hlo : p.code.next ≤ t) (hhi : t ≤ p1.code.next) :
    Emits lo p (p1.withCode (p1.code.patch a t)) b :=
  h.withCode (h.grows.patch hl hlo hhi)

/-- Pending jumps that are led to the next quad. -/
theorem patchHere {a b : List Nat} (hl : l.Perm (a ++ b)) :
    Emits lo p (p1.withCode (p1.code.patch a p1.code.next)) b :=
  h.patch hl h.grows.next_le (Nat.le_refl _)

private theorem appended {q : Quad}
    (hc : p.code.Grows p.env lo (p1.code.push q) l') : Emits lo p (p1.appended q) l' where
  outside := by
    have := h.outside
    rw [Progress.appended, this]
  grows := hc

theorem append (hq : q.WellFormed p.env p1.code lo) (hplain : q.IsPlain)
    (hpar : q.op ≠ .par) : Emits lo p (p1.appended q) l :=
  h.appended (h.grows.push hq hplain hpar)

theorem appendPending (hq : q.WellFormed p.env p1.code lo)
    (ho : q.output = some .pending) : Emits lo p (p1.appended q) (l ++ [p1.code.next]) :=
  h.appended (h.grows.pushPending hq ho)

omit h in
/-- A loop is closed by a jump to its head, which was marked before. -/
theorem loop (h : Emits lo (p.withCode (p.code.mark p.code.next)) p1 l) :
    Emits lo p (p1.appended ⟨.jump, none, none, some (.target p.code.next)⟩) l where
  outside := by
    have := h.outside
    rw [Progress.appended, this, Progress.withCode]
  grows := h.grows.loop

theorem appendAll (hqs : ∀ q ∈ qs, q.WellFormed p.env p1.code lo ∧ q.IsPlain)
    (hcalls : Quad.CallsComplete qs) : Emits lo p (p1.appendedAll qs) l where
  outside := by
    obtain ⟨events, he⟩ := exists_appendedAll p1 qs
    rw [he, h.outside]
  grows := by
    rw [code_appendedAll]
    exact h.grows.pushAll hqs hcalls

end Emits

end Progress

/-! ### Operands of expressions -/

/-- The operand of something computed has a value if it is a scalar, and an address
if it is an array or may be assigned to. -/
structure Computed.Sound (env : Environment) (c : Code) (lo : Nat) (x : Computed) : Prop where
  readable : x.shape.extents = [] → x.operand.Readable env c lo
  located : x.assignable ∨ x.shape.extents ≠ [] → x.operand.Located env c lo

namespace Computed

variable {env : Environment} {c c' : Code} {lo : Nat} {x : Computed}

theorem Sound.mono (h : x.Sound env c lo) (hc : c.Extends c') : x.Sound env c' lo :=
  ⟨fun he => (h.readable he).mono hc, fun ha => (h.located ha).mono hc⟩

theorem Sound.emits {p p' : Progress} {l : List Nat} (h : x.Sound p.env p.code lo)
    (e : p.Emits lo p' l) : x.Sound p'.env p'.code lo := e.env_eq ▸ h.mono e.grows.ext

theorem Sound.asValue (h : x.Sound env c lo) : x.asValue.Sound env c lo :=
  ⟨h.readable, fun ha => h.located (.inr (ha.resolve_left (by simp [Computed.asValue])))⟩

theorem Sound.value {o : Operand} (ty : Ty) (h : o.Readable env c lo) :
    (Computed.value ty o).Sound env c lo :=
  ⟨fun _ => h, fun ha => by simp [Computed.value] at ha⟩

theorem extents_of_isScalar (h : x.isScalar ty) : x.shape.extents = [] := by
  rw [isScalar, decide_eq_true_iff] at h
  rw [h]

theorem Sound.readable_of_isScalar (h : x.Sound env c lo) (hs : x.isScalar ty) :
    x.operand.Readable env c lo := h.readable (extents_of_isScalar hs)

end Computed

namespace Exits

/-- The exits for one answer and for the other. -/
theorem perm_when (a : Exits) (answer : Bool) :
    (a.whenTrue ++ a.whenFalse).Perm (a.when (!answer) ++ a.when answer) := by
  cases answer
  · exact .refl _
  · exact perm_append_comm

theorem perm_join (a : Exits) (k : Connective) (b : Exits) :
    (a.when k.settles ++ (b.whenTrue ++ b.whenFalse)).Perm
      ((a.join k b).whenTrue ++ (a.join k b).whenFalse) := by
  cases k
  · exact perm_append_comm_assoc _ _ _
  · exact .of_eq (append_assoc ..).symm

theorem when_subset (a : Exits) (answer : Bool) : a.when answer ⊆ a.whenTrue ++ a.whenFalse := by
  cases answer
  · exact subset_append_right _ _
  · exact subset_append_left _ _

end Exits

namespace Emit

variable {lo : Nat} {p p' : Progress}

theorem arithmetic_emits {operator : Arith} {a b o : Operand} (hlo : lo ≤ p.code.temps.size)
    (ha : a.Readable p.env p.code lo) (hb : b.Readable p.env p.code lo)
    (h : arithmetic operator a b p = .ok o p') :
    p.Emits lo p' [] ∧ o.Readable p.env p'.code lo := by
  rw [arithmetic_run] at h
  cases h
  have hext := Code.Extends.newTemp p.code .int
  have ho : (Operand.temp p.code.temps.size).Readable p.env (p.code.newTemp .int) lo :=
    ⟨hlo, by simp⟩
  refine ⟨((Emits.refl lo p).newTemp .int).append ?_ trivial nofun, ho⟩
  exact ⟨a, b, _, rfl, ha.mono hext, rfl, hb.mono hext, rfl, ho⟩

theorem named_sound {x : String} (h : named l x p = .ok c p) : c.Sound p.env p.code lo := by
  obtain ⟨-, ⟨d, scope⟩, hb, hc⟩ := named_ok h
  obtain ⟨v, rfl, rfl⟩ | ⟨q, rfl, rfl⟩ := hc
  · exact ⟨fun hext => ⟨_, hb, hext⟩, fun _ => ⟨_, hb, nofun⟩⟩
  · refine ⟨fun hext => ⟨_, hb, ?_⟩, fun _ => ⟨_, hb, nofun⟩⟩
    cases hopen : q.isOpen with
    | true => simp [Parameter.shape, hopen] at hext
    | false => exact ⟨hopen, by simpa [Parameter.shape, hopen] using hext⟩

theorem element_emits {array : Computed} {extents : List Nat} {offset : Operand}
    (hlo : lo ≤ p.code.temps.size) (harray : array.operand.Located p.env p.code lo)
    (hoff : offset.Readable p.env p.code lo) (h : element array extents offset p = .ok c p') :
    p.Emits lo p' [] ∧ c.Sound p.env p'.code lo := by
  rw [element_run] at h
  cases h
  have hext := Code.Extends.newCell p.code .int ⟨array.shape.ty, extents.length⟩
  have hcell : (Operand.cell p.code.temps.size).Readable p.env
      ((p.code.newTemp .int).describe p.code.temps.size ⟨array.shape.ty, extents.length⟩) lo :=
    ⟨hlo, by simp, by simp [Code.cell?_describe]⟩
  refine ⟨((Emits.refl lo p).newCell .int _).append ?_ trivial nofun,
    fun _ => hcell, fun _ => hcell⟩
  exact ⟨_, _, _, rfl, harray.mono hext, rfl, hoff.mono hext, rfl, hcell⟩

/-- An argument has an address if it is passed by reference, and otherwise a value,
provided that its parameter is a scalar. -/
def ArgumentSound (env : Environment) (c : Code) (lo : Nat) (scalars : Prop) (a : Argument) :
    Prop :=
  if a.byReference then a.value.Located env c lo else scalars → a.value.Readable env c lo

theorem ArgumentSound.mono {env : Environment} {c c' : Code} {scalars scalars' : Prop}
    {a : Argument} (h : ArgumentSound env c lo scalars a) (hc : c.Extends c')
    (hs : scalars' → scalars) : ArgumentSound env c' lo scalars' a := by
  unfold ArgumentSound at h ⊢
  split
  · rename_i hr
    rw [if_pos hr] at h
    exact h.mono hc
  · rename_i hr
    rw [if_neg hr] at h
    exact fun hs' => (h (hs hs')).mono hc

theorem ArgumentSound.argumentQuad {env : Environment} {c : Code} {a : Argument}
    (h : ArgumentSound env c lo env.PassesScalars a) :
    (argumentQuad a).WellFormed env c lo ∧ (argumentQuad a).IsPlain := by
  refine ⟨⟨rfl, a.value, rfl, ?_⟩, trivial⟩
  unfold ArgumentSound at h
  by_cases hr : a.byReference
  · rw [if_pos hr] at h
    exact .inr (.inl ⟨by simp [Emit.argumentQuad, hr], h⟩)
  · rw [if_neg hr] at h
    exact .inl ⟨by simp [Emit.argumentQuad, hr], h⟩

/-- The parameters that are passed by value are scalars. -/
def ScalarParameters (qs : List Parameter) : Prop :=
  ∀ q ∈ qs, q.byReference = false → q.isOpen = false ∧ q.extents = []

theorem argumentSound_of_checked {env : Environment} {c : Code} {qs : List Parameter}
    (h : List.Forall₂ (Checked fun x => x.Sound env c lo) qs as) :
    ∀ a ∈ as, ArgumentSound env c lo (ScalarParameters qs) a := by
  induction h with
  | nil => exact forall_mem_nil _
  | @cons q a qs as hchecked _ ih =>
    refine forall_mem_cons.mpr ⟨?_, fun b hb => (ih b hb).mono (.refl _) fun hs r hr =>
      hs r (mem_cons_of_mem _ hr)⟩
    obtain ⟨x, hx, -, hmatch, href, rfl⟩ := hchecked
    unfold ArgumentSound
    split
    · rename_i hr
      exact hx.located (.inl (href hr))
    · rename_i hr
      intro hscalar
      obtain ⟨hopen, hext⟩ := hscalar q mem_cons_self (by simpa using hr)
      refine hx.readable ?_
      simpa [extentsMatch, hopen, hext] using hmatch

theorem callsComplete_arguments (as : List Argument) {r : Quad} (h : Quad.CallsComplete (r :: qs))
    (hr : r.op = .par ∨ r.op = .call) :
    Quad.CallsComplete (as.map Emit.argumentQuad ++ r :: qs) := by
  induction as with
  | nil => exact h
  | cons a as ih =>
    cases as with
    | nil => exact h.cons hr
    | cons b bs => exact ih.cons (.inl rfl)

theorem resultCallQuads_callsComplete (as : List Argument) (n : Nat) (label : FunctionLabel) :
    Quad.CallsComplete (resultCallQuads as n label) :=
  callsComplete_arguments as
    ((Quad.callsComplete_singleton (q := callQuadOf label) nofun).cons (.inr rfl)) (.inl rfl)

theorem effectCallQuads_callsComplete (as : List Argument) (label : FunctionLabel) :
    Quad.CallsComplete (effectCallQuads as label) :=
  callsComplete_arguments as (Quad.callsComplete_singleton nofun) (.inr rfl)

section CallQuads

variable {c : Code} {g : FunctionDecl} {f : String} {scope : Int} {as : List Argument}

variable (hfind : p.env.find? f = some ⟨.fn g, scope⟩)

include hfind

/-- A call names a function by the scope in which it is declared. -/
theorem callQuadOf_wellFormed : (callQuadOf (calleeLabel g scope)).WellFormed p.env c lo := by
  refine ⟨_, rfl, _, mem_of_find?_eq_some hfind, fun d hd => ?_⟩
  unfold calleeLabel at hd
  split at hd
  · cases hd
  · exact Option.some.inj hd

theorem scalarParameters_of_find (h : p.env.PassesScalars) : ScalarParameters g.parameters :=
  h _ (mem_of_find?_eq_some hfind) g rfl

theorem effectCallQuads_wellFormed
    (has : ∀ a ∈ as, ArgumentSound p.env c lo p.env.PassesScalars a) :
    ∀ q ∈ effectCallQuads as (calleeLabel g scope), q.WellFormed p.env c lo ∧ q.IsPlain := by
  intro q hq
  rcases mem_append.mp hq with hq | hq
  · obtain ⟨a, ha, rfl⟩ := mem_map.mp hq
    exact (has a ha).argumentQuad
  · obtain rfl := mem_singleton.mp hq
    exact ⟨callQuadOf_wellFormed hfind, trivial⟩

theorem resultCallQuads_wellFormed (has : ∀ a ∈ as, ArgumentSound p.env c lo p.env.PassesScalars a)
    (hn : (Operand.temp n).Readable p.env c lo) :
    ∀ q ∈ resultCallQuads as n (calleeLabel g scope), q.WellFormed p.env c lo ∧ q.IsPlain := by
  intro q hq
  rcases mem_append.mp hq with hq | hq
  · exact effectCallQuads_wellFormed hfind has q (mem_append_left _ hq)
  · rcases mem_cons.mp hq with rfl | hq
    · exact ⟨⟨rfl, _, rfl, .inr (.inr ⟨rfl, n, rfl, hn⟩)⟩, trivial⟩
    · exact effectCallQuads_wellFormed hfind has q (mem_append_right _ hq)

end CallQuads

theorem expressionSteps_emits (lo : Nat) : ExpressionSteps (fun _ => ([] : List Unit))
    (fun p => lo ≤ p.code.temps.size) (fun p p' _ => p.Emits lo p' [])
    (fun p x => x.Sound p.env p.code lo) where
  refl := .refl lo
  trans h h' := h.trans_nil h'
  keep h hx := hx.emits h
  node _ _ h := h
  name _ h := named_sound h
  int _ _ := .value _ trivial
  char _ _ := .value _ trivial
  string _ _ := ⟨nofun, fun _ => trivial⟩
  asValue h := h.asValue
  arithmetic hlo ha hb h := by
    obtain ⟨e, ho⟩ := arithmetic_emits hlo (ha.readable rfl) (hb.readable rfl) h
    exact ⟨e.le_size hlo, e, .value _ (e.env_eq ▸ ho)⟩
  element hlo harray hne hoffset h := by
    obtain ⟨e, hx⟩ := element_emits hlo (harray.located (.inr hne)) (hoffset.readable rfl) h
    exact ⟨e.le_size hlo, e, e.env_eq ▸ hx⟩
  resultCall := by
    rintro p q _ l f es g scope as hlo hfind hresult - - e has rfl -
    have hext := Code.Extends.newTemp q.code g.result
    have htemp : (Operand.temp q.code.temps.size).Readable p.env (q.code.newTemp g.result) lo :=
      ⟨hlo, g.result, by simp, hresult⟩
    -- the function was declared, so its parameters by value are scalars if all such are
    have has' : ∀ a ∈ as, ArgumentSound p.env (q.code.newTemp g.result) lo
        p.env.PassesScalars a :=
      fun a ha => (argumentSound_of_checked (e.env_eq ▸ has) a ha).mono hext
        (scalarParameters_of_find hfind)
    have e' := (e.newTemp g.result).appendAll (resultCallQuads_wellFormed hfind has' htemp)
      (resultCallQuads_callsComplete _ _ _)
    refine ⟨?_, e', .value _ ?_⟩
    · rw [temps_appendedAll]
      exact Nat.le_trans hlo hext.size_le
    · rw [e'.env_eq, code_appendedAll]
      exact htemp

theorem expression_emits (e : Expr) (hlo : lo ≤ p.code.temps.size) (h : expression e p = .ok c p') :
    p.Emits lo p' [] ∧ c.Sound p.env p'.code lo := by
  obtain ⟨-, hemits, hsound⟩ := (expressionSteps_emits lo).expression e hlo h
  exact ⟨hemits, hemits.env_eq ▸ hsound⟩

theorem argumentsOf_emits (f : FunctionDecl) (qs : List Parameter) (es : List Expr)
    (hlo : lo ≤ p.code.temps.size) (h : argumentsOf f qs es p = .ok as p') :
    p.Emits lo p' [] ∧
      ∀ a ∈ as, ArgumentSound p.env p'.code lo (ScalarParameters (qs.take es.length)) a := by
  obtain ⟨-, hemits, hchecked⟩ := (expressionSteps_emits lo).argumentsOf f qs es hlo h
  exact ⟨hemits, argumentSound_of_checked (hemits.env_eq ▸ hchecked)⟩

/-! ### Conditions -/

theorem comparison_emits {relation : Relation} {a b : Computed} {exits : Exits}
    (ha : a.Sound p.env p.code lo) (hb : b.Sound p.env p.code lo)
    (h : comparison l relation a b p = .ok exits p') :
    p.Emits lo p' (exits.whenTrue ++ exits.whenFalse) := by
  obtain ⟨hext, hshape, -, rfl, rfl⟩ := comparison_ok h
  have hra := ha.readable hext
  have hrb := hb.readable (hshape ▸ hext)
  have hcompare : (compareQuad relation a.operand b.operand).WellFormed p.env p.code lo :=
    ⟨.inl rfl, _, _, rfl, hra, rfl, hrb⟩
  have htaken := (Emits.refl lo p).appendPending hcompare rfl
  have hpassed := htaken.appendPending (q := jumpQuad) (.inl rfl) rfl
  simpa using hpassed

/-- What a condition leaves pending are its exits. -/
theorem condition_emits (e : Expr) {exits : Exits} (hlo : lo ≤ p.code.temps.size)
    (h : condition e p = .ok exits p') : p.Emits lo p' (exits.whenTrue ++ exits.whenFalse) := by
  induction h using condition_induction with
  | group ih => exact ih hlo
  | not ih => exact (ih hlo).perm perm_append_comm
  | @logic _ k _ _ _ a _ b _ _ _ _ ihleft ihright =>
    -- the right side is where the left side goes if it does not settle the matter
    have e1 := (ihleft hlo).patchHere (a.perm_when k.settles)
    exact (e1.trans (ihright (e1.le_size hlo))).perm (a.perm_join k b)
  | @compare _ _ left right p _ _ h =>
    obtain ⟨a, p1, b, p2, ha, hb, hcompare⟩ := condition_compare_ok h
    obtain ⟨e1, s1⟩ := expression_emits left hlo ha
    obtain ⟨e2, s2⟩ := expression_emits right (e1.le_size hlo) hb
    have henv : p2.env = p.env := by rw [e2.env_eq, e1.env_eq]
    have e3 := comparison_emits (henv ▸ s1.mono e2.grows.ext) (e2.env_eq ▸ s2) hcompare
    exact e1.trans_nil (e2.trans_nil e3)

/-! ### Statements -/

theorem assign_emits {target value : Computed} (ht : target.Sound p.env p.code lo)
    (hv : value.Sound p.env p.code lo) (h : assign l target value p = .ok () p') :
    p.Emits lo p' [] := by
  obtain ⟨hassign, hext, hshape, rfl⟩ := assign_ok h
  refine (Emits.refl lo p).append ?_ trivial nofun
  exact ⟨_, _, rfl, hv.readable (hshape ▸ hext), rfl,
    .inr ⟨ht.readable hext, ht.located (.inl hassign)⟩⟩

theorem callForEffect_emits {e : Expr} (hlo : lo ≤ p.code.temps.size)
    (h : callForEffect e p = .ok () p') : p.Emits lo p' [] := by
  obtain ⟨l, f, arguments, g, scope, as, q, rfl, hg, has, rfl⟩ := callForEffect_ok h
  obtain ⟨-, hfind, hlength, -⟩ := callee_ok hg
  obtain ⟨e1, s1⟩ := argumentsOf_emits g g.parameters arguments hlo has
  rw [take_of_length_le (Nat.le_of_eq hlength.symm)] at s1
  refine e1.appendAll (effectCallQuads_wellFormed hfind fun a ha => ?_)
    (effectCallQuads_callsComplete _ _)
  exact (s1 a ha).mono (.refl _) (scalarParameters_of_find hfind)

theorem returnValue_emits {function : String} {result : Ty} {value : Expr}
    (hlo : lo ≤ p.code.temps.size) (h : returnValue function result l value p = .ok () p') :
    p.Emits lo p' [] := by
  obtain ⟨-, c, q, hc, hs, rfl⟩ := returnValue_ok h
  obtain ⟨e1, s1⟩ := expression_emits value hlo hc
  have hassign : (assignQuad c.operand .returnValue).WellFormed p.env q.code lo :=
    ⟨_, _, rfl, s1.readable_of_isScalar hs, rfl, .inl rfl⟩
  exact (e1.append hassign trivial nofun).append rfl trivial nofun

section Statement

variable (function : String) (result : Ty)

mutual

/-- What a statement leaves pending are the jumps to what follows it. -/
theorem statement_emits {lo : Nat} : ∀ (s : Stmt) {p p' : Progress} {pending : List Nat},
    lo ≤ p.code.temps.size → statement function result s p = .ok pending p' →
      p.Emits lo p' pending
  | .empty, p, p', pending, _, h => by
    rw [statement] at h
    cases h
    exact .refl _ _
  | .assign l target value, p, p', pending, hlo, h => by
    obtain ⟨a, p1, b, p2, ha, hb, hassign, rfl⟩ := statement_assign_ok h
    obtain ⟨e1, s1⟩ := expression_emits target hlo ha
    obtain ⟨e2, s2⟩ := expression_emits value (e1.le_size hlo) hb
    have henv : p2.env = p.env := by rw [e2.env_eq, e1.env_eq]
    have e3 := assign_emits (henv ▸ s1.mono e2.grows.ext) (e2.env_eq ▸ s2) hassign
    exact e1.trans_nil (e2.trans_nil e3)
  | .call e, p, p', pending, hlo, h => by
    obtain ⟨hcall, rfl⟩ := statement_call_ok h
    exact callForEffect_emits hlo hcall
  | .block body, p, p', pending, hlo, h => by
    rw [statement] at h
    exact statements_emits body hlo (.refl lo p) h
  | .ifThen c body, p, p', pending, hlo, h => by
    obtain ⟨exits, p1, p2, hc, hbody, rfl⟩ := statement_ifThen_ok h
    have e1 := (condition_emits c hlo hc).patchHere (.refl _)
    have e2 := statement_emits body (e1.le_size hlo) hbody
    exact (e1.trans e2).patchHere (.refl _)
  | .ifElse c body otherwise, p, p', pending, hlo, h => by
    obtain ⟨exits, p1, l, p2, l', p3, hc, hbody, rfl, helse, rfl⟩ := statement_ifElse_ok h
    have e1 := (condition_emits c hlo hc).patchHere (.refl _)
    have e2 := e1.trans (statement_emits body (e1.le_size hlo) hbody)
    -- the jump over the other branch waits for what follows, as the body does
    have e3 := e2.appendPending (q := jumpQuad) (.inl rfl) rfl
    rw [append_assoc] at e3
    have e4 := e3.patchHere (.refl _)
    have e5 := e4.trans (statement_emits otherwise (e4.le_size hlo) helse)
    rwa [append_assoc] at e5
  | .whileDo c body, p, p', pending, hlo, h => by
    obtain ⟨exits, p1, l, p2, hc, hbody, rfl, rfl⟩ := statement_whileDo_ok h
    have hmarked : lo ≤ (p.withCode (p.code.mark p.code.next)).code.temps.size := hlo
    have e1 := (condition_emits c hmarked hc).patchHere (.refl _)
    have e2 := e1.trans (statement_emits body (e1.le_size hmarked) hbody)
    -- the jumps of the body go back to the head, so only the way out stays pending
    exact (e2.patch perm_append_comm (Nat.le_refl _) e2.grows.next_le).loop
  | .returnValue l value, p, p', pending, hlo, h => by
    obtain ⟨hret, rfl⟩ := statement_returnValue_ok h
    exact returnValue_emits hlo hret
  | .returnNothing l, p, p', pending, hlo, h => by
    obtain ⟨hret, rfl⟩ := statement_returnNothing_ok h
    obtain ⟨-, rfl⟩ := returnNothing_ok hret
    exact (Emits.refl lo p).append rfl trivial nofun
  | .missing n, p, p', pending, _, h => by cases h

/-- Statements in a row leave pending what the last of them does. -/
theorem statements_emits {lo : Nat} : ∀ (ss : List Stmt) {p0 p p' : Progress}
    {pending l : List Nat}, lo ≤ p.code.temps.size → p0.Emits lo p l →
      statements function result l ss p = .ok pending p' → p0.Emits lo p' pending
  | [], p0, p, p', pending, l, _, h0, h => by
    rw [statements] at h
    cases h
    exact h0
  | s :: ss, p0, p, p', pending, l, hlo, h0, h => by
    obtain ⟨l', p1, hs, hss⟩ := statements_cons_ok h
    -- all that is pending since `p0` is led to this statement
    have e1 := h0.patchHere (.of_eq l.append_nil.symm)
    have e2 := statement_emits s (p := p.withCode _) (by simpa using hlo) hs
    exact statements_emits ss (e2.le_size (by simpa using hlo)) (e1.trans_nil e2) hss

end

variable {function result}

/-- A body behind a condition: pending are the exits that lead past it and its own jumps. -/
theorem guarded_emits {c : Expr} {body : Stmt} {p p1 p2 : Progress} {exits : Exits}
    {pending : List Nat} (hc : condition c p = .ok exits p1)
    (hbody : statement function result body
      (p1.withCode (p1.code.patch exits.whenTrue p1.code.next)) = .ok pending p2) :
    p.Emits 0 p2 (exits.whenFalse ++ pending) :=
  ((condition_emits c (Nat.zero_le _) hc).patchHere (.refl _)).trans
    (statement_emits function result body (Nat.zero_le _) hbody)

end Statement

end Emit

/-! ### The code of expressions is straight -/

/-- The operations that the code of an expression is made of. -/
def Opcode.IsStraight : Opcode → Prop
  | array | arith _ | par | call => True
  | _ => False

theorem Opcode.IsStraight.cases {op : Opcode} (h : op.IsStraight) :
    op = .array ∨ (∃ operator, op = .arith operator) ∨ op = .par ∨ op = .call := by
  cases op <;> simp_all [IsStraight]

namespace Code

/-- The second code is the first with quads of expressions appended, and with the same
targets. -/
structure Lengthens (c c' : Code) : Prop where
  quads : ∃ qs : List Quad, c'.quads = c.quads ++ qs.toArray ∧ ∀ q ∈ qs, q.op.IsStraight
  targets : c'.targets = c.targets

namespace Lengthens

variable {c c1 c2 : Code} {i : Nat} {q : Quad}

theorem of_quads (hquads : c1.quads = c.quads) (htargets : c1.targets = c.targets) :
    c.Lengthens c1 := ⟨⟨[], by simp [hquads], by simp⟩, htargets⟩

theorem refl (c : Code) : c.Lengthens c := of_quads rfl rfl

theorem trans (h : c.Lengthens c1) (h' : c1.Lengthens c2) : c.Lengthens c2 := by
  obtain ⟨⟨qs, hquads, hqs⟩, htargets⟩ := h
  obtain ⟨⟨rs, hquads', hrs⟩, htargets'⟩ := h'
  refine ⟨⟨qs ++ rs, by simp [hquads', hquads], ?_⟩, htargets'.trans htargets⟩
  exact forall_mem_append.mpr ⟨hqs, hrs⟩

theorem pushAll (c : Code) {qs : List Quad} (hqs : ∀ q ∈ qs, q.op.IsStraight) :
    c.Lengthens (c.pushAll qs) := ⟨⟨qs, rfl, hqs⟩, rfl⟩

theorem push (c : Code) (hq : q.op.IsStraight) : c.Lengthens (c.push q) := by
  rw [← pushAll_singleton]
  exact pushAll c (forall_mem_singleton.mpr hq)

theorem newTemp (c : Code) (ty : Ty) : c.Lengthens (c.newTemp ty) := of_quads rfl rfl

theorem newCell (c : Code) (ty : Ty) (n : Nat) (info : CellInfo) :
    c.Lengthens ((c.newTemp ty).describe n info) := of_quads rfl rfl

/-- The quads that are new are quads of expressions. -/
theorem isStraight (h : c.Lengthens c1) (hi : c.next ≤ i) (hq : c1.quads[i]? = some q) :
    q.op.IsStraight := by
  obtain ⟨⟨qs, hquads, hqs⟩, -⟩ := h
  rw [show c1.quads = (c.pushAll qs).quads from hquads, getElem?_pushAll,
    if_neg (Nat.not_lt.mpr hi)] at hq
  exact hqs q (mem_of_getElem? hq)

theorem getElem?_of_lt (h : c.Lengthens c1) (hi : i < c.next) :
    c1.quads[i]? = c.quads[i]? := by
  obtain ⟨⟨qs, hquads, -⟩, -⟩ := h
  rw [show c1.quads = (c.pushAll qs).quads from hquads, getElem?_pushAll, if_pos hi]

theorem next_le (h : c.Lengthens c1) : c.next ≤ c1.next := by
  obtain ⟨⟨qs, hquads, -⟩, -⟩ := h
  rw [next, next, hquads, Array.size_append]
  exact Nat.le_add_right _ _

end Lengthens

end Code

namespace Emit

theorem resultCallQuads_isStraight (as : List Argument) (n : Nat) (label : FunctionLabel) :
    ∀ q ∈ resultCallQuads as n label, q.op.IsStraight := by
  intro q hq
  simp only [resultCallQuads, mem_append, mem_map, mem_cons,
    not_mem_nil, or_false] at hq
  obtain ⟨a, -, rfl⟩ | rfl | rfl := hq <;> trivial

/-- The code of expressions is lengthened in steps. -/
theorem expressionSteps_lengthens : ExpressionSteps (fun _ => ([] : List Unit)) (fun _ => True)
    (fun p p' _ => p.code.Lengthens p'.code) (fun _ _ => True) where
  refl _ := .refl _
  trans h h' := h.trans h'
  node _ _ h := h
  arithmetic {p _ _ _ _ _} _ _ _ h := by
    cases h
    exact ⟨trivial, (Code.Lengthens.newTemp p.code .int).trans (.push _ trivial), trivial⟩
  element {p _ _ _ _ _} _ _ _ _ h := by
    cases h
    exact ⟨trivial, (Code.Lengthens.newCell p.code .int _ _).trans (.push _ trivial), trivial⟩
  resultCall {_ p1 _ _ _ _ fn _ _} _ _ _ _ _ h _ hp' _ := by
    refine ⟨trivial, ?_, trivial⟩
    rw [hp', Progress.code_appendedAll]
    exact h.trans ((Code.Lengthens.newTemp p1.code fn.result).trans
      (.pushAll _ (resultCallQuads_isStraight _ _ _)))

/-- An expression appends quads through which control passes. -/
theorem expression_lengthens (e : Expr) {p p' : Progress} {c : Computed}
    (h : expression e p = .ok c p') : p.code.Lengthens p'.code :=
  (expressionSteps_lengthens.expression e trivial h).2.1

end Emit

end BlockLang
