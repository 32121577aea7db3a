import BlockLang.Proofs.Program.Header
import BlockLang.Proofs.Processor.Basic

/-!
# Access links over whole runs

A run of a program is a stack of activations. A call puts an activation on top, a return takes it
away. The links follow the nesting of the functions in the tree: they lead to the latest activation
of the function as many levels around.
-/

namespace BlockLang

open List Option

variable {tree : Decl} {hops : Int} {n : Nat} {p : Progress}

/-- A function that runs, with the base of its frame and the frame that its link names. -/
structure Activation where
  function : CompiledFunction
  base : Word
  link : Word

namespace Activation

/-- The link in the frame at a base. -/
def linkAt? (stack : List Activation) (base : Word) : Option Word :=
  (stack.find? fun a => a.base = base).map link

/-- The frame that a number of links lead to. -/
def follow? (stack : List Activation) : Nat → Word → Option Word
  | 0, base => some base
  | n + 1, base => (linkAt? stack base).bind (follow? stack n)

/-- One step of a run: a call by a quad of the running function, or a return. The frame of
the called function stands where no other one does. -/
inductive Step (rs : List CompiledFunction) : List Activation → List Activation → Prop
  | call {a : Activation} {rest : List Activation} {i : Nat} {q : Quad} {label : FunctionLabel}
      {depth : Int} {callee : CompiledFunction} {base link : Word} (hi : a.function.first ≤ i)
      (hq : a.function.closed.code.quads[i]? = some q) (hlabel : q.callee? = some label)
      (hdepth : label.depth = some depth) (hcallee : callee ∈ rs) (hcalled : callee.label = label)
      (hlink : follow? (a :: rest) (a.function.site.hops depth).toNat a.base = some link)
      (hbase : base ∉ (a :: rest).map Activation.base) :
      Step rs (a :: rest) (⟨callee, base, link⟩ :: a :: rest)
  | ret {a b : Activation} {rest : List Activation} : Step rs (a :: b :: rest) (b :: rest)

/-- The activations after some steps. At first the program runs. -/
def Reachable (rs : List CompiledFunction) (stack : List Activation) : Prop :=
  ∃ a : Activation, a.function ∈ rs ∧ a.function.path = [] ∧
    Relation.ReflTransGen (Step rs) [a] stack

/-! ### Following links -/

variable {stack : List Activation} {a c : Activation} {base link : Word}

theorem follow?_add (m n : Nat) (base : Word) :
    follow? stack (m + n) base = (follow? stack m base).bind (follow? stack n) := by
  induction m generalizing base with
  | zero => rw [Nat.zero_add, follow?, bind_some]
  | succ m ih =>
    rw [Nat.add_right_comm, follow?, follow?, bind_assoc]
    exact congrArg (bind _) (funext ih)

theorem linkAt?_isSome (h : a ∈ stack) : (linkAt? stack a.base).isSome := by
  rw [linkAt?, isSome_map, find?_isSome]
  exact ⟨a, h, decide_eq_true rfl⟩

theorem linkAt?_cons (hfresh : c.base ∉ stack.map Activation.base)
    (h : linkAt? stack base = some link) : linkAt? (c :: stack) base = some link := by
  have hne : c.base ≠ base := by
    rintro rfl
    obtain ⟨b, hb, -⟩ := map_eq_some_iff.mp h
    have heq := find?_some hb
    exact hfresh (mem_map.mpr ⟨b, mem_of_find?_eq_some hb, of_decide_eq_true heq⟩)
  rw [linkAt?, find?_cons_of_neg (by simpa using hne)]
  exact h

theorem linkAt?_top : linkAt? (c :: stack) c.base = some c.link := by
  simp [linkAt?]

/-- The links that lead to a frame still do below a further activation. -/
theorem follow?_cons (hfresh : c.base ∉ stack.map Activation.base) {target : Word}
    (h : follow? stack n base = some target) : follow? (c :: stack) n base = some target := by
  induction n generalizing base with
  | zero => exact h
  | succ n ih =>
    obtain ⟨link, hlink, hrest⟩ := bind_eq_some_iff.mp h
    rw [follow?, linkAt?_cons hfresh hlink]
    exact ih hrest

/-! ### Links that follow the nesting of functions -/

/-- A number of links lead from an activation to the latest one of the function as many
levels around. -/
def Reaches (stack : List Activation) (a : Activation) (k : Nat) : Prop :=
  ∃ newer b older, stack = newer ++ b :: older ∧ follow? stack k a.base = some b.base ∧
    b.function.path = a.function.path.take (a.function.path.length - k) ∧
    ∀ n ∈ newer, n.function.path ≠ b.function.path

/-- From every activation the links lead outward as the functions are nested, in the part
of the stack that was there when it was put on top. -/
inductive Sound (rs : List CompiledFunction) : List Activation → Prop
  | nil : Sound rs []
  | cons {a : Activation} {rest : List Activation} (rest_sound : Sound rs rest)
      (function : a.function ∈ rs) (fresh : a.base ∉ rest.map Activation.base)
      (reaches : ∀ k ≤ a.function.path.length, Reaches (a :: rest) a k) : Sound rs (a :: rest)

theorem Reaches.top : Reaches (a :: stack) a 0 := by
  refine ⟨[], a, stack, rfl, rfl, ?_, by simp⟩
  rw [Nat.sub_zero, take_length]

namespace Sound

variable {rs : List CompiledFunction} {rest : List Activation}

theorem nodup (h : Sound rs stack) : (stack.map Activation.base).Nodup := by
  induction h with
  | nil => exact nodup_nil
  | cons _ _ fresh _ ih => exact nodup_cons.mpr ⟨fresh, ih⟩

theorem mem (h : Sound rs stack) : ∀ b ∈ stack, b.function ∈ rs := by
  induction h with
  | nil => simp
  | cons _ function _ _ ih => exact forall_mem_cons.mpr ⟨function, ih⟩

theorem start (hr : a.function ∈ rs) (hpath : a.function.path = []) : Sound rs [a] := by
  refine .cons .nil hr (by simp) fun k hk => ?_
  rw [hpath, length_nil, Nat.le_zero] at hk
  exact hk ▸ Reaches.top

/-- The links lead beyond the program, to the link of the program itself. -/
theorem follow?_isSome (h : Sound rs (a :: rest)) (hn : n ≤ a.function.path.length + 1) :
    (follow? (a :: rest) n a.base).isSome := by
  cases h with
  | cons _ _ _ reaches =>
    rcases Nat.le_succ_iff.mp hn with hn | rfl
    · obtain ⟨newer, b, older, -, hfollow, -⟩ := reaches n hn
      rw [hfollow, isSome_some]
    · obtain ⟨newer, b, older, hstack, hfollow, -⟩ := reaches _ le_rfl
      have hb : b ∈ a :: rest := hstack ▸ mem_append_right _ mem_cons_self
      obtain ⟨link, hlink⟩ := isSome_iff_exists.mp (linkAt?_isSome hb)
      rw [Nat.succ_eq_add_one, follow?_add, hfollow, bind_some, follow?, hlink]
      rfl

/-- A function that is called gets the frame of the function that it was declared in, so
its links lead outward as those of the caller do from there. -/
theorem call (h : Sound rs (a :: rest)) (hr : c.function ∈ rs)
    (hsees : a.function.Sees c.function hops)
    (hlink : follow? (a :: rest) hops.toNat a.base = some c.link)
    (hfresh : c.base ∉ (a :: rest).map Activation.base) : Sound rs (c :: a :: rest) := by
  refine .cons h hr hfresh fun k hk => ?_
  cases h with
  | cons _ _ _ reaches =>
  rcases k with _ | k
  · exact Reaches.top
  rcases hsees with ⟨hprogram, -⟩ | ⟨n, j, rfl, hn, hpath⟩
  · rw [hprogram] at hk
    exact absurd hk (Nat.not_succ_le_zero k)
  have hlength : c.function.path.length = a.function.path.length - n + 1 := by
    rw [hpath, length_append, length_take, length_singleton]
    omega
  obtain ⟨newer, b, older, hstack, hfollow, hb, hnewer⟩ := reaches (n + k) (by omega)
  rw [Int.toNat_natCast] at hlink
  rw [follow?_add, hlink, bind_some] at hfollow
  refine ⟨c :: newer, b, older, by rw [hstack, cons_append], ?_, ?_, ?_⟩
  · rw [follow?, linkAt?_top, bind_some]
    exact follow?_cons hfresh hfollow
  · rw [hb, hlength, hpath, Nat.add_sub_add_right, Nat.sub_add_eq,
      take_append_of_le_length (by rw [length_take]; omega), take_take,
      Nat.min_eq_left (Nat.sub_le _ _)]
  · -- the new activation is nested more deeply than the functions around it
    refine forall_mem_cons.mpr ⟨fun heq => ?_, hnewer⟩
    have := congrArg List.length (heq.trans hb)
    rw [hlength, length_take] at this
    omega

/-- A step keeps the links right. -/
theorem step {stack' : List Activation} (h : Sound rs stack) (hcompiles : Compiles tree p rs)
    (htext : tree.InText) (hstep : Step rs stack stack') : Sound rs stack' := by
  cases hstep with
  | call hi hq hlabel hdepth hcallee hcalled hlink hbase =>
    refine h.call hcallee ?_ hlink hbase
    exact hcompiles.sees_target htext (h.mem _ mem_cons_self) hi hq hlabel hdepth hcallee
      hcalled
  | ret =>
    cases h with
    | cons rest_sound => exact rest_sound

/-- The links are right in every run. -/
theorem of_reachable (hcompiles : Compiles tree p rs) (htext : tree.InText)
    (h : Reachable rs stack) : Sound rs stack := by
  obtain ⟨a, hr, hpath, hsteps⟩ := h
  induction hsteps with
  | refl => exact start hr hpath
  | tail _ hstep ih => exact ih.step hcompiles htext hstep

end Sound

/-! ### Runs of a text -/

/-- The links from the running activation follow the nesting of the functions in the tree,
and every call of the running function can be made. -/
structure Nests (tree : Decl) (rs : List CompiledFunction) (a : Activation)
    (rest : List Activation) : Prop where
  bases : ((a :: rest).map Activation.base).Nodup
  functions : ∀ b ∈ a :: rest, b.function ∈ rs
  /-- As many links as there are levels to a function around lead to its latest activation. -/
  levels : ∃ d ∈ tree.definitions [] [], d.path = a.function.path ∧ d.body = a.function.body ∧
    ∀ k level, d.levels[k]? = some level → ∃ newer b older, a :: rest = newer ++ b :: older ∧
      follow? (a :: rest) k a.base = some b.base ∧ b.function.path = level.path ∧
      ∀ n ∈ newer, n.function.path ≠ level.path
  /-- A call of a function of the program finds the function and the frame for its link. -/
  calls : ∀ i q label depth, a.function.first ≤ i →
    a.function.closed.code.quads[i]? = some q → q.callee? = some label →
    label.depth = some depth → ∃ callee ∈ rs, callee.label = label ∧
      0 ≤ a.function.site.hops depth ∧ ∃ link,
        follow? (a :: rest) (a.function.site.hops depth).toNat a.base = some link ∧
        ∀ base, base ∉ (a :: rest).map Activation.base →
          Step rs (a :: rest) (⟨callee, base, link⟩ :: a :: rest)

variable {tree : Decl} {p : Progress} {rs : List CompiledFunction} {rest : List Activation}

/-- A function that is called is at most one level beyond the program. -/
theorem hops_le {r callee : CompiledFunction} (h : r.Sees callee hops) :
    0 ≤ hops ∧ hops.toNat ≤ r.path.length + 1 := by
  rcases h with ⟨-, rfl⟩ | ⟨n, j, rfl, hn, -⟩ <;> omega

/-- Where the links are right they follow the tree. -/
theorem Sound.nests (h : Sound rs (a :: rest)) (hcompiles : Compiles tree p rs)
    (htext : tree.InText) : Nests tree rs a rest := by
  have hr := h.mem a mem_cons_self
  refine ⟨h.nodup, h.mem, ?_, ?_⟩
  · obtain ⟨d, hd, hreal⟩ := hcompiles.exists_definition htext hr
    refine ⟨_, hd, hreal.path, hreal.body, fun k level hlevel => ?_⟩
    obtain ⟨hk, hpath⟩ := Decl.path_level hd hlevel
    rw [hreal.path] at hk hpath
    cases h with
    | cons _ _ _ reaches =>
      obtain ⟨newer, b, older, hstack, hfollow, hb, hnewer⟩ := reaches k hk
      exact ⟨newer, b, older, hstack, hfollow, hb.trans hpath.symm,
        fun n hn => hpath ▸ hb ▸ hnewer n hn⟩
  · intro i q label depth hi hq hlabel hdepth
    obtain ⟨callee, hcallee, hcalled, hsees⟩ :=
      hcompiles.exists_target htext hr hi hq hlabel hdepth
    obtain ⟨hpos, hle⟩ := hops_le hsees
    obtain ⟨link, hlink⟩ := isSome_iff_exists.mp (h.follow?_isSome hle)
    exact ⟨callee, hcallee, hcalled, hpos, link, hlink, fun base hbase =>
      .call hi hq hlabel hdepth hcallee hcalled hlink hbase⟩

theorem Nests.exists_around (h : Nests tree rs a rest) {k : Nat}
    (hk : k ≤ a.function.path.length) :
    ∃ b ∈ a :: rest, follow? (a :: rest) k a.base = some b.base ∧
      b.function.path = a.function.path.take (a.function.path.length - k) := by
  obtain ⟨d, hd, hpath, -, hlevels⟩ := h.levels
  have hlevel : k < d.levels.length := by
    rw [Decl.length_levels hd, hpath]
    exact Nat.lt_succ_of_le hk
  obtain ⟨newer, b, older, hstack, hfollow, hb, -⟩ := hlevels k _ (getElem?_eq_getElem hlevel)
  refine ⟨b, hstack ▸ mem_append_right _ mem_cons_self, hfollow, ?_⟩
  rw [hb, (Decl.path_level hd (getElem?_eq_getElem hlevel)).2, hpath]

/-- The running function makes each call of its body that is not one of a standard routine. -/
theorem Reachable.exists_call (h : Reachable rs (a :: rest)) (hcompiles : Compiles tree p rs)
    (htext : tree.InText) {x : String} (hx : x ∈ Stmt.calledAll a.function.body)
    (hstandard : ∀ g ∈ FunctionDecl.standard, g.name ≠ x) :
    ∃ callee ∈ rs, callee.header.name = x ∧ ∃ link,
      ∀ base ∉ (a :: rest).map Activation.base,
        Reachable rs (⟨callee, base, link⟩ :: a :: rest) := by
  have hsound := Sound.of_reachable hcompiles htext h
  obtain ⟨callee, hcallee, hname, i, q, depth, hi, hq, hlabel, hdepth⟩ :=
    hcompiles.exists_quad_of_called htext (hsound.mem _ mem_cons_self) hx hstandard
  obtain ⟨target, htarget, hcalled, -, link, -, hstep⟩ :=
    (hsound.nests hcompiles htext).calls i q _ depth hi hq hlabel hdepth
  obtain rfl := inj_on_of_nodup_map hcompiles.labelled.1 htarget hcallee hcalled
  obtain ⟨first, hfirst, hpath, hsteps⟩ := h
  exact ⟨target, htarget, hname, link, fun base hbase =>
    ⟨first, hfirst, hpath, hsteps.tail (hstep base hbase)⟩⟩

end Activation

/-- In every run of a text that compiles, a number of links lead from the running
activation to the latest activation of the function that is as many levels around the
running one in the tree, and a call finds the frame for its link. -/
theorem access_links_follow_nesting {source : String} {c : Compilation}
    (h : (compile source).1 = .ok c) :
    ∃ lexemes tree p rs, Token.scan source = .ok lexemes ∧ (Decl.read lexemes).1 = .ok tree ∧
      Compiles tree p rs ∧ c = p.compilation tree ∧
      ∀ a rest, Activation.Reachable rs (a :: rest) → Activation.Nests tree rs a rest := by
  obtain ⟨lexemes, tree, p, rs, hscan, hread, hcompiles, hc⟩ := compiles_of_compile h
  have htext := Decl.inText_of_read hscan hread
  refine ⟨lexemes, tree, p, rs, hscan, hread, hcompiles, hc, fun a rest hreachable => ?_⟩
  exact (Activation.Sound.of_reachable hcompiles htext hreachable).nests hcompiles htext

/-- A program in which an inner function calls the one around it. -/
def nestedCalls : String :=
  "function main(): nothing;
function outer(): nothing;
function inner(): nothing; begin outer(); end
begin inner(); end
begin outer(); end"

/-- The names and paths of its functions, and what they call. -/
def nestedFunctions : List (String × List Nat × List String) :=
  [("inner", [0, 0], ["outer"]), ("outer", [0], ["inner"]), ("main", [], ["outer"])]

theorem access_links_follow_nesting_nestedCalls : ∃ c, (compile nestedCalls).1 = .ok c ∧
    ∃ tree p rs, Compiles tree p rs ∧ ∃ main outer inner : Activation,
      Activation.Reachable rs [inner, outer, main] ∧
      Activation.Nests tree rs inner [outer, main] ∧ inner.function.path = [0, 0] ∧
      Activation.follow? [inner, outer, main] 1 inner.base = some outer.base ∧
      Activation.follow? [inner, outer, main] 2 inner.base = some main.base := by
  have hknown : (treeOf? nestedCalls).any (fun tree => (progress? tree).any fun _ =>
      (tree.definitions [] []).map (fun d => (d.header.name, d.path, Stmt.calledAll d.body)) =
        nestedFunctions) = true := by
    decide +kernel
  obtain ⟨c, hc⟩ := exists_compilation hknown
  obtain ⟨lexemes, tree, p, rs, hscan, hread, hcompiles, -, hnests⟩ :=
    access_links_follow_nesting hc
  simp only [treeOf?_eq hscan hread, Option.any_some, Option.any_eq_true, decide_eq_true_eq]
    at hknown
  obtain ⟨-, -, hknown⟩ := hknown
  have htext := Decl.inText_of_read hscan hread
  have hfunction : ∀ r ∈ rs, (r.header.name, r.path, Stmt.calledAll r.body) ∈ nestedFunctions := by
    intro r hr
    obtain ⟨d, hd, hreal⟩ := hcompiles.exists_definition htext hr
    rw [← hreal.header, ← hreal.path, ← hreal.body, ← hknown]
    exact mem_map_of_mem hd
  -- the program calls the outer function, and this one the inner function
  obtain ⟨main, hmain, hpath, -⟩ := hcompiles.program_eq
  have hstart : Activation.Reachable rs [⟨main, 0, 0⟩] := ⟨_, hmain, hpath, .refl⟩
  obtain ⟨-, hcalls⟩ : main.header.name = "main" ∧ Stmt.calledAll main.body = ["outer"] := by
    simpa [nestedFunctions, hpath] using hfunction main hmain
  obtain ⟨outer, houter, hname, link, hfirst⟩ := hstart.exists_call hcompiles htext
    (x := "outer") (by simp [hcalls]) (by decide)
  obtain ⟨hpath', hcalls'⟩ : outer.path = [0] ∧ Stmt.calledAll outer.body = ["inner"] := by
    simpa [nestedFunctions, hname] using hfunction outer houter
  obtain ⟨inner, hinner, hname', link', hsecond⟩ := (hfirst 1 (by simp)).exists_call hcompiles
    htext (x := "inner") (by simp [hcalls']) (by decide)
  replace hsecond := hsecond 2 (by simp)
  obtain ⟨hpath'', -⟩ : inner.path = [0, 0] ∧ Stmt.calledAll inner.body = ["outer"] := by
    simpa [nestedFunctions, hname'] using hfunction inner hinner
  -- the activation that the links lead to is known by the path of its function
  have hlinks := hnests _ _ hsecond
  obtain ⟨b, hb, hone, hbpath⟩ := hlinks.exists_around (k := 1) (by simp [hpath''])
  obtain ⟨b', hb', htwo, hbpath'⟩ := hlinks.exists_around (k := 2) (by simp [hpath''])
  simp only [mem_cons, not_mem_nil, or_false] at hb hb'
  obtain rfl : b = ⟨outer, 1, link⟩ := by rcases hb with rfl | rfl | rfl <;> simp_all
  obtain rfl : b' = ⟨main, 0, 0⟩ := by rcases hb' with rfl | rfl | rfl <;> simp_all
  exact ⟨c, hc, tree, p, rs, hcompiles, _, _, _, hsecond, hlinks, hpath'', hone, htwo⟩

end BlockLang
