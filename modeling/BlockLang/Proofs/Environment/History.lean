import BlockLang.Proofs.Environment
import BlockLang.Proofs.Environment.SymbolTable
import Mathlib.Data.List.Induction
import Mathlib.Data.List.Infix

/-!
# Histories of scopes

A history is a sequence of openings of scopes, declarations and closings, each of which may be
refused. Whatever the history, a symbol table answers as the plain list of declarations does. What
was declared since a scope was opened is what closing it removes; a scope may also be closed that
was never opened, and then every declaration belongs to it.
-/

namespace BlockLang

open Environment FunctionDecl List

/-- What happens to the scopes of a program. -/
inductive ScopeOp where
  | enter
  | leave
  | declare (d : Declaration)
  | declareStandard

namespace Environment

/-- One operation, with the reason if it is refused. -/
def perform (env : Environment) : ScopeOp → Environment × Option SemanticError
  | .enter => (env.enter, none)
  | .leave =>
      match env.leave with
      | .ok env' => (env', none)
      | .error e => (env, some e)
  | .declare d =>
      match env.declare d with
      | .ok env' => (env', none)
      | .error e => (env, some e)
  | .declareStandard => declareAll (standard.map .fn) env

/-- The operations of a history one after the other. -/
def run (ops : List ScopeOp) (env : Environment) : Environment :=
  ops.foldl (fun env op => (env.perform op).1) env

end Environment

namespace SymbolTable

/-- One operation, with the reason if it is refused. -/
def perform (t : SymbolTable) : ScopeOp → SymbolTable × Option SemanticError
  | .enter => (t.enter, none)
  | .leave =>
      match t.leave with
      | .ok t' => (t', none)
      | .error e => (t, some e)
  | .declare d =>
      match t.declare d with
      | .ok t' => (t', none)
      | .error e => (t, some e)
  | .declareStandard => declareAll (standard.map .fn) t

/-- The operations of a history one after the other. -/
def run (ops : List ScopeOp) (t : SymbolTable) : SymbolTable :=
  ops.foldl (fun t op => (t.perform op).1) t

variable {t : SymbolTable} {env : Environment}

/-- An operation has the same outcome in a table as in the environment. -/
theorem Represents.perform (h : t.Represents env) (op : ScopeOp) :
    (t.perform op).1.Represents (env.perform op).1 ∧ (t.perform op).2 = (env.perform op).2 := by
  cases op with
  | enter => exact ⟨h.enter, rfl⟩
  | leave =>
    obtain ⟨e, ht, henv⟩ | ⟨t', env', ht, henv, h'⟩ := h.leave
    · simp only [SymbolTable.perform, Environment.perform, ht, henv, and_true]
      exact h
    · simp only [SymbolTable.perform, Environment.perform, ht, henv, and_true]
      exact h'
  | declare d =>
    obtain ⟨e, ht, henv⟩ | ⟨t', env', ht, henv, h'⟩ := h.declare d
    · simp only [SymbolTable.perform, Environment.perform, ht, henv, and_true]
      exact h
    · simp only [SymbolTable.perform, Environment.perform, ht, henv, and_true]
      exact h'
  | declareStandard => exact h.declareAll _

theorem Represents.run (h : t.Represents env) (ops : List ScopeOp) :
    (t.run ops).Represents (env.run ops) := by
  induction ops generalizing t env with
  | nil => exact h
  | cons op ops ih => exact ih (h.perform op).1

end SymbolTable

namespace Environment

variable {env env' : Environment} {ops : List ScopeOp}

theorem run_append (ops ops' : List ScopeOp) (env : Environment) :
    env.run (ops ++ ops') = (env.run ops).run ops' := foldl_append

/-! ### Invariants of histories -/

section Invariant

variable {P : Environment → Prop} (h : P env)

include h

/-- What a declaration keeps, declarations in a row keep. -/
theorem declareAll_induction
    (hdeclare : ∀ {env env' : Environment} {d}, P env → env.declare d = .ok env' → P env')
    (ds : List Declaration) : P (declareAll ds env).1 := by
  induction ds generalizing env with
  | nil => exact h
  | cons d ds ih =>
    cases hd : env.declare d with
    | error e => simpa only [declareAll, hd] using h
    | ok env' => simpa only [declareAll, hd] using ih (hdeclare h hd)

/-- An operation that is refused changes nothing. -/
theorem perform_cases (henter : P env.enter) (hleave : ∀ {env'}, env.leave = .ok env' → P env')
    (hdeclare : ∀ {env' d}, env.declare d = .ok env' → P env')
    (hdeclareAll : ∀ ds, P (declareAll ds env).1) (op : ScopeOp) : P (env.perform op).1 := by
  cases op with
  | enter => exact henter
  | leave =>
    cases hl : env.leave with
    | error e => simpa only [perform, hl] using h
    | ok env' => simpa only [perform, hl] using hleave hl
  | declare d =>
    cases hd : env.declare d with
    | error e => simpa only [perform, hd] using h
    | ok env' => simpa only [perform, hd] using hdeclare hd
  | declareStandard => exact hdeclareAll _

end Invariant

/-! ### Order -/

theorem Ordered.perform (h : env.Ordered) (op : ScopeOp) : (env.perform op).1.Ordered :=
  perform_cases h h.enter h.leave h.declare (declareAll_induction h Ordered.declare) op

theorem Ordered.run (h : env.Ordered) (ops : List ScopeOp) : (env.run ops).Ordered := by
  induction ops generalizing env with
  | nil => exact h
  | cons op ops ih => exact ih (h.perform op)

theorem Ordered.empty : ({} : Environment).Ordered := ⟨List.Pairwise.nil, nofun⟩

/-- Leaving a scope removes the declarations of that scope and no others. -/
theorem Ordered.bindings_of_leave (h : env.Ordered) (hleave : env.leave = .ok env') :
    env'.bindings = env.bindings.filter fun b => b.scope ≠ env.scope := by
  have hordered := h.leave hleave
  obtain rfl := eq_of_leave hleave
  have houter : ∀ b ∈ env.bindings.dropWhile fun b => b.scope = env.scope,
      b.scope ≠ env.scope := by
    intro b hb
    have hle : b.scope ≤ env.scope - 1 := hordered.scope_le b hb
    omega
  conv_rhs => rw [← takeWhile_append_dropWhile (l := env.bindings)
    (p := fun b => b.scope = env.scope), filter_append]
  rw [filter_eq_nil_iff.mpr (fun b hb => by simpa using mem_takeWhile_imp hb),
    nil_append, filter_eq_self.mpr (fun b hb => by simpa using houter b hb)]

/-! ### Open scopes -/

/-- The declarations are those of `base` with others of scopes inside `scope` in front. -/
def Inside (scope : Int) (base : List Binding) (env : Environment) : Prop :=
  ∃ inner, env.bindings = inner ++ base ∧ ∀ b ∈ inner, scope < b.scope

namespace Inside

variable {scope : Int} {base : List Binding}

theorem of_bindings (h : env.bindings = base) : env.Inside scope base :=
  ⟨[], h, nofun⟩

variable (h : env.Inside scope base)

include h

theorem declare {d : Declaration} (hscope : scope < env.scope)
    (hd : env.declare d = .ok env') : env'.Inside scope base := by
  obtain ⟨inner, hbindings, hinner⟩ := h
  obtain rfl := eq_of_declare hd
  exact ⟨⟨d, env.scope⟩ :: inner, by simp [hbindings], forall_mem_cons.mpr ⟨hscope, hinner⟩⟩

theorem declareAll (hscope : scope < env.scope) (ds : List Declaration) :
    (declareAll ds env).1.Inside scope base :=
  (declareAll_induction (P := fun env => env.Inside scope base ∧ scope < env.scope) ⟨h, hscope⟩
    (fun h hd => ⟨h.1.declare h.2 hd, by rw [eq_of_declare hd]; exact h.2⟩) ds).1

variable (hbase : ∀ b ∈ base, b.scope ≤ scope)

include hbase

/-- Leaving a scope further inside does not reach the earlier declarations. -/
theorem leave (hscope : scope < env.scope) (hleave : env.leave = .ok env') :
    env'.Inside scope base := by
  obtain ⟨inner, hbindings, hinner⟩ := h
  obtain rfl := eq_of_leave hleave
  have hkept : base.dropWhile (fun b => decide (b.scope = env.scope)) = base := by
    cases base with
    | nil => rfl
    | cons b base =>
      have hle := hbase b mem_cons_self
      exact dropWhile_cons_of_neg (by simp only [decide_eq_true_eq]; omega)
  refine ⟨inner.dropWhile fun b => b.scope = env.scope, ?_,
    fun b hb => hinner b ((dropWhile_sublist _).subset hb)⟩
  simp only [hbindings, dropWhile_append]
  split
  · rename_i hnil
    rw [hkept, List.isEmpty_iff.mp hnil, nil_append]
  · rfl

theorem perform (hscope : scope < env.scope) (op : ScopeOp) :
    (env.perform op).1.Inside scope base :=
  perform_cases (P := (·.Inside scope base)) h h (h.leave hbase hscope) (h.declare hscope)
    (h.declareAll hscope) op

/-- As long as a scope is open, the earlier declarations stay behind those of
inner scopes. -/
theorem run (hopen : ∀ p, p <+: ops → scope < (env.run p).scope) :
    (env.run ops).Inside scope base := by
  induction ops using List.reverseRecOn with
  | nil => exact h
  | append_singleton ops op ih =>
    rw [run_append]
    have hbefore := ih fun p hp => hopen p (hp.trans (prefix_append _ _))
    exact hbefore.perform hbase (hopen ops (prefix_append _ _)) op

/-- Closing the scope leaves what was there before it was opened. -/
theorem eq_of_leave (hordered : env.Ordered) (hscope : env.scope = scope + 1)
    (hleave : env.leave = .ok env') : env' = ⟨base, scope⟩ := by
  obtain ⟨inner, hbindings, hinner⟩ := h
  have hfilter := hordered.bindings_of_leave hleave
  have hinner' : inner.filter (fun b => b.scope ≠ env.scope) = [] := by
    apply filter_eq_nil_iff.mpr
    intro b hb
    have hlt := hinner b hb
    have hle := hordered.scope_le b (hbindings ▸ mem_append_left _ hb)
    simp only [ne_eq, decide_not, Bool.not_eq_true', decide_eq_false_iff_not, not_not]
    omega
  have hbase' : base.filter (fun b => b.scope ≠ env.scope) = base := by
    apply filter_eq_self.mpr
    intro b hb
    have hle := hbase b hb
    simp only [ne_eq, decide_not, Bool.not_eq_true', decide_eq_false_iff_not]
    omega
  rw [hbindings, filter_append, hinner', hbase', nil_append] at hfilter
  have hscope' : env'.scope = scope := by
    rw [Environment.eq_of_leave hleave]
    simp only [hscope, Int.add_sub_cancel]
  rw [← hfilter, ← hscope']

end Inside

end Environment

/-! ### Answers after a history -/

namespace SymbolTable

open Environment (Ordered Inside)

variable {t t' : SymbolTable} {env : Environment} {ops before inside : List ScopeOp}

theorem represents_run (ops : List ScopeOp) :
    (({} : SymbolTable).run ops).Represents (({} : Environment).run ops) :=
  Represents.empty.run ops

theorem ordered_run (ops : List ScopeOp) : (({} : Environment).run ops).Ordered :=
  Ordered.empty.run ops

/-- A refused operation changes nothing. -/
theorem perform_of_refused {op : ScopeOp} (hop : op ≠ .declareStandard)
    (h : (t.perform op).2 ≠ none) : (t.perform op).1 = t := by
  cases op with
  | enter => exact absurd rfl h
  | leave =>
    cases hl : t.leave with
    | error e => simp only [perform, hl]
    | ok t' => simp [perform, hl] at h
  | declare d =>
    cases hd : t.declare d with
    | error e => simp only [perform, hd]
    | ok t' => simp [perform, hd] at h
  | declareStandard => exact absurd rfl hop

/-- What leaving a scope leaves is represented too. -/
theorem Represents.of_leave (h : t.Represents env) (hleave : t.leave = .ok t') :
    ∃ env', env.leave = .ok env' ∧ t'.Represents env' := by
  obtain ⟨e, ht, -⟩ | ⟨t1, env', ht, henv, h'⟩ := h.leave
  · cases hleave.symm.trans ht
  · cases hleave.symm.trans ht
    exact ⟨env', henv, h'⟩

/-- Leaving a scope gives the table that there was before the scope was entered. -/
theorem eq_of_leave_entered
    (hinside : ∀ p, p <+: inside →
      (({} : SymbolTable).run before).scope <
        (({} : SymbolTable).run (before ++ .enter :: p)).scope)
    (hscope : (({} : SymbolTable).run (before ++ .enter :: inside)).scope =
      (({} : SymbolTable).run before).scope + 1)
    (hleave : (({} : SymbolTable).run (before ++ .enter :: inside)).leave = .ok t') :
    t' = ({} : SymbolTable).run before := by
  obtain ⟨env', henv, hrepresents⟩ := (represents_run _).of_leave hleave
  simp only [(represents_run _).scope] at hinside hscope
  have hbase := (ordered_run before).scope_le
  have hrun : (({} : Environment).run (before ++ .enter :: inside)).Inside
      (({} : Environment).run before).scope (({} : Environment).run before).bindings := by
    rw [run_append]
    have hstart : (({} : Environment).run before).enter.Inside
        (({} : Environment).run before).scope (({} : Environment).run before).bindings :=
      .of_bindings rfl
    apply hstart.run hbase
    intro p hp
    have hlt := hinside p hp
    rwa [run_append before] at hlt
  have heq := hrun.eq_of_leave hbase (ordered_run _) hscope henv
  exact hrepresents.unique (heq ▸ represents_run before)

/-- Leaving a scope that was never entered removes everything. -/
theorem entries_of_leave_outermost
    (houtermost : ∀ p, p <+: ops →
      (({} : SymbolTable).run ops).scope ≤ (({} : SymbolTable).run p).scope)
    (hleave : (({} : SymbolTable).run ops).leave = .ok t') : t'.entries = #[] := by
  obtain ⟨env', henv, hrepresents⟩ := (represents_run _).of_leave hleave
  simp only [(represents_run _).scope] at houtermost
  have hrun : (({} : Environment).run ops).Inside ((({} : Environment).run ops).scope - 1) [] :=
    Inside.run (.of_bindings rfl) nofun fun p hp =>
      Int.lt_of_lt_of_le (Int.sub_one_lt_of_le (Int.le_refl _)) (houtermost p hp)
  have heq := hrun.eq_of_leave nofun (ordered_run _) (Int.sub_add_cancel _ _).symm henv
  have hlength := hrepresents.length_eq
  rw [heq] at hlength
  exact Array.size_eq_zero_iff.mp hlength.symm

/-- After every history, whether its operations succeeded or were refused, a table
answers as the list of declarations does. A name stands for its last declaration. The
variables and parameters of a scope are in the order of their declaration. Every
operation succeeds or is refused as for the list, and a refused one changes nothing.
Leaving a scope removes the declarations of the scope and gives the table that there
was before the scope was entered, or the empty one if it never was. The places in the
table lie in its arena. -/
theorem answers_of_history (ops : List ScopeOp) :
    let t := ({} : SymbolTable).run ops
    let env := ({} : Environment).run ops
    let made := env.bindings.reverse
    (∀ x, t.find? x = env.find? x ∧
      env.find? x = (made.filter fun b => b.name = x).getLast?) ∧
    (∀ s, t.locals s = env.locals s ∧
      env.locals s = (made.filter fun b => b.scope = s).filterMap fun b =>
        match b.declaration with
        | .var v => some v
        | _ => none) ∧
    (∀ s, t.parameters s = env.parameters s ∧
      env.parameters s = (made.filter fun b => b.scope = s).filterMap fun b =>
        match b.declaration with
        | .param q => some q
        | _ => none) ∧
    t.scope = env.scope ∧
    (∀ op, (t.perform op).2 = (env.perform op).2) ∧
    (∀ op, op ≠ .declareStandard → (t.perform op).2 ≠ none → (t.perform op).1 = t) ∧
    (∀ t', t.leave = .ok t' → t'.entries.toList.map Entry.toBinding =
      made.filter fun b => b.scope ≠ t.scope) ∧
    (∀ before inside t', ops = before ++ .enter :: inside →
      (∀ p, p <+: inside → (({} : SymbolTable).run before).scope <
        (({} : SymbolTable).run (before ++ .enter :: p)).scope) →
      t.scope = (({} : SymbolTable).run before).scope + 1 → t.leave = .ok t' →
      t' = ({} : SymbolTable).run before) ∧
    (∀ t', (∀ p, p <+: ops → t.scope ≤ (({} : SymbolTable).run p).scope) → t.leave = .ok t' →
      t'.entries = #[]) ∧
    (∀ x i, t.places x = some i → i < t.entries.size) ∧
    ∀ (k : Nat) e j, t.entries[k]? = some e → e.hidden = some j → j < k := by
  intro t env made
  have h : t.Represents env := represents_run ops
  refine ⟨fun x => ⟨h.find? x, ?_⟩, fun s => ⟨h.locals s, ?_⟩, fun s => ⟨h.parameters s, ?_⟩,
    h.scope, fun op => (h.perform op).2, fun op => perform_of_refused, fun t' hleave => ?_,
    ?_, fun t' => entries_of_leave_outermost, fun x i => h.place_lt, fun k e j => h.hidden_lt⟩
  · rewrite [filter_reverse, getLast?_reverse, head?_filter]
    rfl
  · rewrite [Environment.locals, Environment.ofScope, filter_reverse]
    rfl
  · rewrite [Environment.parameters, Environment.ofScope, filter_reverse]
    rfl
  · obtain ⟨env', henv, h'⟩ := h.of_leave hleave
    rw [h'.map_entries, (ordered_run ops).bindings_of_leave henv, h.scope, filter_reverse]
  · rintro before inside t' rfl
    exact eq_of_leave_entered

/-- A scope in which a standard routine is hidden by a function of its own, declared
ahead and then defined, and in a scope further inside by a variable. -/
def hidingPuti : List ScopeOp :=
  [.declare (.fn ⟨"puti", .source ⟨1, 1⟩, .nothing, [], false, 0⟩),
    .declare (.fn ⟨"puti", .source ⟨2, 1⟩, .nothing, [], true, 0⟩), .enter,
    .declare (.var ⟨"puti", .source ⟨3, 1⟩, .int, []⟩), .leave]

theorem answers_of_history_hidingPuti :
    ∃ t', (({} : SymbolTable).run ([.declareStandard] ++ .enter :: hidingPuti)).leave = .ok t' ∧
      t' = ({} : SymbolTable).run [.declareStandard] := by
  obtain ⟨-, -, -, -, -, -, -, hentered, -⟩ :=
    answers_of_history ([.declareStandard] ++ .enter :: hidingPuti)
  cases hleave : (({} : SymbolTable).run ([.declareStandard] ++ .enter :: hidingPuti)).leave with
  | error e =>
    have hok : (({} : SymbolTable).run
        ([.declareStandard] ++ .enter :: hidingPuti)).leave.isOk := by decide +kernel
    rw [hleave] at hok
    cases hok
  | ok t' =>
    refine ⟨t', rfl, hentered _ _ t' rfl (fun p hp => ?_) (by decide +kernel) hleave⟩
    have hall : ∀ p ∈ hidingPuti.inits, (({} : SymbolTable).run [.declareStandard]).scope <
        (({} : SymbolTable).run ([.declareStandard] ++ .enter :: p)).scope := by decide +kernel
    exact hall p ((mem_inits p hidingPuti).mpr hp)

end SymbolTable

end BlockLang
