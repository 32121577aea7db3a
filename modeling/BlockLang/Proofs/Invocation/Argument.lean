import BlockLang.Proofs.Invocation.Scene
import BlockLang.Proofs.Program.Passing

/-!
# What is passed in calls

The lines in front of a call push the words of its arguments and the link. The addresses
among them are those of data, unless they were given by subscripts. What is pushed lies below
all frames, so it changes no word that is found afterwards, except for a value that is read
from there.
-/

namespace BlockLang

open Argument Declaration Emit List Option

/-- The type of the place of an operand is that of the operand. -/
theorem Layout.type_of_place? {l : Layout} {base : Nat → Word} {s : Store} {o : Operand}
    {ty ty' : Ty} {addr : Word} (hplace : l.place? base s o = some (ty', addr))
    (h : o.HasType l.env l.code ty) : ty' = ty := by
  cases o with
  | temp n =>
    obtain ⟨hty, -⟩ := place?_temp_eq_some.mp hplace
    exact some.inj (hty.symm.trans h)
  | cell n =>
    obtain ⟨info, t, hinfo, -, rfl, -⟩ := place?_cell_eq_some.mp hplace
    obtain ⟨-, info', hinfo', rfl⟩ := h
    cases hinfo.symm.trans hinfo'
    rfl
  | name x =>
    obtain ⟨⟨d, scope⟩, hx, hty⟩ := h
    cases d with
    | var v =>
      obtain ⟨_, -, heq⟩ := map_eq_some_iff.mp ((named?_var hx).symm.trans hplace)
      cases heq
      exact some.inj hty
    | param q =>
      obtain ⟨_, -, heq⟩ := map_eq_some_iff.mp ((named?_param hx).symm.trans hplace)
      cases heq
      exact some.inj hty
    | fn f => cases hty
  | _ => cases hplace

/-- Kinds of parameters are those of their types, modes and extents. -/
theorem Parameter.isScalar_of_kind_eq {q q' : Parameter} (h : q.kind = q'.kind) :
    q.ty = q'.ty ∧ q.byReference = q'.byReference ∧
      ((param q).IsScalar ↔ (param q').IsScalar) := by
  obtain ⟨hty, hextents, href, hopen⟩ : q.ty = q'.ty ∧ q.extents = q'.extents ∧
      q.byReference = q'.byReference ∧ q.isOpen = q'.isOpen := by
    simpa [Parameter.kind] using h
  refine ⟨hty, href, ?_⟩
  rw [IsScalar, IsScalar, hopen, hextents]

/-! ### Calls with their lines -/

/-- A quad is the call of a visible function, with arguments that suit its parameters, and it
has its lines. -/
structure CompiledFunction.CallsAt (p : Progress) (r : CompiledFunction) (j : Nat)
    (g : FunctionDecl) (scope : Int) (as : List Argument) (destination : Option Nat)
    (front tail : List Instruction) : Prop
    extends r.CallLines p j (calleeLabel g scope) as destination front tail where
  calls : ∃ first, r.CallsFrom first g scope as destination ∧
    j = first + (as.length + destination.toList.length)
  suits : List.Forall₂ (Suits r.opened.env r.closed.code) as g.parameters

/-- The calls of a program have their lines. -/
theorem Compiles.exists_callsAt {tree : Decl} {p : Progress} {rs : List CompiledFunction}
    {r : CompiledFunction} {j : Nat} {q : Quad} (h : Compiles tree p rs) (htext : tree.InText)
    (htyped : tree.IsTyped) (hr : r ∈ rs) (hj : r.first ≤ j)
    (hq : r.closed.code.quads[j]? = some q) (hop : q.op = .call) :
    ∃ g scope as destination front tail, r.CallsAt p j g scope as destination front tail := by
  obtain ⟨first, g, scope, as, destination, hcalls, hposition, hcall⟩ :=
    h.exists_callOf htext htyped hr hj hq hop
  obtain ⟨front, tail, hlines⟩ := h.call_lines htext htyped hr hcalls hposition hj
  exact ⟨g, scope, as, destination, front, tail, hlines, ⟨first, hcalls, hposition⟩,
    hcall.arguments⟩

namespace CompiledFunction.CallsAt

variable {p : Progress} {r : CompiledFunction} {j : Nat} {g : FunctionDecl} {scope : Int}
  {as : List Argument} {destination : Option Nat} {front tail : List Instruction}

variable (h : r.CallsAt p j g scope as destination front tail)

include h

theorem quad : r.closed.code.quads[j]? = some (callQuadOf (calleeLabel g scope)) := by
  obtain ⟨first, hcalls, rfl⟩ := h.calls
  exact hcalls.quad_call

theorem length_eq : as.length = g.parameters.length := h.suits.length_eq

/-- The call is the line after those in front of it. -/
theorem line :
    p.assembly.program[r.line j + front.length]? =
      some (.call (calleeLabel g scope).text) := h.placed.right.head

theorem next_eq : r.line (j + 1) = r.line j + front.length + 1 + tail.length := by
  have hnext := h.next
  rw [length_append, length_cons] at hnext
  omega

/-- After the call its words are taken from the stack and its result is stored. -/
theorem resumes {words : Nat}
    (hwords : (if (calleeLabel g scope).depth.isSome then 1 else 0) + as.length = words) :
    r.Resumes p j words destination (r.line j + front.length + 1) tail where
  first_lt := h.first_lt
  lt_last := h.lt_last
  line_lt := by omega
  placed := h.placed.right.tail
  next := h.next_eq
  straight := h.straight_tail
  cleans image base := by
    have hcleans := h.cleans image base
    rwa [Lower.length_links, hwords] at hcleans
  writable := h.writable

end CompiledFunction.CallsAt

namespace Invocation

variable {tree : Decl} {p : Progress} {l : Launch} {rs : List CompiledFunction}
  {a : Invocation} {rest : List Invocation} {s s' : Store} {σ σ1 : Processor}

/-- The value of an argument is not read from the free part of the stack. -/
def Apart (l : Launch) (rs : List CompiledFunction) (s : Store) (a : Invocation)
    (rest : List Invocation) (x : Argument) : Prop :=
  x.byReference = false → ∀ ty addr,
    (a.function.layout rs).place? (s.frames a.base) s x.value = some (ty, addr) →
      addr.bytes ty.width ⊆ l.image.Fixed (bottom l (a :: rest))

namespace Standing

section Words

variable (hcompiles : Compiles tree p rs) (htext : tree.InText) (h : Standing l rs s a rest)
  (heq : Set.EqOn s' s (l.image.Fixed (bottom l (a :: rest)))) {lo : Nat} {x : Argument}
  {literals : List String}

include hcompiles htext h heq

/-- Addresses do not depend on what lies below the frames. -/
theorem address?_congr {o : Operand}
    (ho : o.Located a.function.opened.env a.function.closed.code lo) :
    (a.function.layout rs).address? (s.frames a.base) s' l.image literals o =
      (a.function.layout rs).address? (s.frames a.base) s l.image literals o := by
  have hplace (hcell : ∀ n, o = .cell n → a.function.closed.code.temps[n]? = some .int) :
      (a.function.layout rs).place? (s.frames a.base) s' o =
        (a.function.layout rs).place? (s.frames a.base) s o :=
    h.place?_congr hcompiles htext (fun b hb => heq (.inr hb)) hcell
  cases o with
  | string t => rfl
  | cell n =>
    refine congrArg (Option.map Prod.snd) (hplace fun n' hn' => ?_)
    cases hn'
    exact ho.2.1
  | name y => exact congrArg (Option.map Prod.snd) (hplace nofun)
  | _ => exact ho.elim

/-- Values do not depend on what lies below the frames, unless they are read from there. -/
theorem value?_congr {o : Operand}
    (ho : o.Readable a.function.opened.env a.function.closed.code lo)
    (hapart : ∀ ty addr, (a.function.layout rs).place? (s.frames a.base) s o = some (ty, addr) →
      addr.bytes ty.width ⊆ l.image.Fixed (bottom l (a :: rest))) :
    (a.function.layout rs).value? (s.frames a.base) s' o =
      (a.function.layout rs).value? (s.frames a.base) s o := by
  have hplace : (a.function.layout rs).place? (s.frames a.base) s' o =
      (a.function.layout rs).place? (s.frames a.base) s o := by
    refine h.place?_congr hcompiles htext (fun b hb => heq (.inr hb)) fun n hn => ?_
    subst hn
    exact ho.2.1
  have hread : ((a.function.layout rs).place? (s.frames a.base) s' o).map (fun cell =>
        s'.read cell.1 cell.2) =
      ((a.function.layout rs).place? (s.frames a.base) s o).map fun cell =>
        s.read cell.1 cell.2 := by
    rw [hplace]
    cases hcell : (a.function.layout rs).place? (s.frames a.base) s o with
    | none => rfl
    | some cell =>
      obtain ⟨ty, addr⟩ := cell
      exact congrArg some (Store.read_congr fun b hb => heq (hapart ty addr hcell hb))
  cases o with
  | int w => rfl
  | char b => rfl
  | _ => exact hread

/-- What is pushed does not matter for the word of an argument. -/
theorem word?_congr
    (hx : if x.byReference then
        x.value.Located a.function.opened.env a.function.closed.code lo
      else x.value.Readable a.function.opened.env a.function.closed.code lo)
    (hapart : Apart l rs s a rest x) :
    x.word? (a.function.layout rs) (s.frames a.base) l.image literals s' =
      x.word? (a.function.layout rs) (s.frames a.base) l.image literals s := by
  unfold word?
  split
  · rename_i href
    rw [if_pos href] at hx
    exact h.address?_congr hcompiles htext heq hx
  · rename_i href
    rw [if_neg href] at hx
    exact h.value?_congr hcompiles htext heq hx (hapart (Bool.eq_false_iff.mpr href))

end Words

/-- The address that is passed for a scalar is that of data, unless a subscript gave it. -/
theorem data_of_argument (hcompiles : Compiles tree p rs) (htext : tree.InText)
    (h : Standing l rs s a rest) (htyped : a.function.opened.env.Typed) {x : Argument}
    {q : Parameter} {literals : List String} {w : Word}
    (hx : x.Suits a.function.opened.env a.function.closed.code q) (href : q.byReference)
    (hscalar : (param q).IsScalar) (hexact : ¬ Subscripted (a :: rest) x.value)
    (hw : x.word? (a.function.layout rs) (s.frames a.base) l.image literals s = some w) :
    w.bytes q.ty.width ⊆ l.Data (a :: rest) := by
  obtain ⟨hreadable, hty⟩ := hx.2 hscalar
  rw [word?, if_pos (hx.1.trans href)] at hw
  -- a text is no scalar
  have hstring : ∀ t, x.value ≠ .string t := by
    intro t ht
    rw [ht] at hreadable
    exact hreadable
  have hplace : ((a.function.layout rs).place? (s.frames a.base) s x.value).map Prod.snd =
      some w := by
    rwa [Layout.address?] at hw
    exact hstring
  obtain ⟨⟨ty, addr⟩, hcell, rfl⟩ := map_eq_some_iff.mp hplace
  obtain rfl := Layout.type_of_place? hcell hty
  exact h.data_of_place hcompiles htext htyped hreadable hexact hcell

end Standing

/-! ### Pushing the words of a call -/

section Calls

variable {j : Nat} {g : FunctionDecl} {scope : Int} {as : List Argument}
  {destination : Option Nat} {front tail : List Instruction}

/-- The link of a function that is called, if it gets one. -/
def linkOf? (s : Store) (a : Invocation) (label : FunctionLabel) : Option Word :=
  label.depth.map fun depth => s.frames a.base (a.function.site.hops depth).toNat

/-- The word of an argument as it is found while words are pushed below all frames. -/
def Finds (p : Progress) (l : Launch) (rs : List CompiledFunction) (σ : Processor) (a : Invocation)
    (rest : List Invocation) (x : Argument) (w : Word) : Prop :=
  ∃ s, Set.EqOn s σ.store (l.image.Fixed (bottom l (a :: rest))) ∧
    x.word? (a.function.layout rs) (σ.store.frames a.base) l.image p.assembly.strings.toList s =
      some w

/-- The lines in front of a call push the words of the arguments, and on top of them the link.
They stop only if there is no room. -/
theorem Poised.pushes (h : a.Poised p l rs 0 rest σ) (hcompiles : Compiles tree p rs)
    (htext : tree.InText)
    (hcall : a.function.CallsAt p j g scope as destination front tail) :
    (∀ σ1, σ.runAll? l.image front = some σ1 → ∃ ws,
      σ.Piled l.image ((linkOf? σ.store a (calleeLabel g scope)).toList ++ ws) σ1 ∧
      List.Forall₂ (a.Finds p l rs σ rest) as ws) ∧
    (l.image.floor + 4 * ((linkOf? σ.store a (calleeLabel g scope)).toList.length +
      as.length) ≤ bottom l (a :: rest) → (σ.runAll? l.image front).isSome) := by
  have hr := h.standing.function_mem
  obtain ⟨p', hcloses⟩ := hcompiles.closes _ hr
  have hsite := hcloses.site_sound (hcompiles.settled _ hr)
  have hesp : (σ.registers .esp).number = bottom l (a :: rest) := h.esp
  obtain ⟨hpiled, hruns⟩ := hcall.pushes l.image (σ.store.frames a.base) σ
    (h.standing.steady h.ebp hesp.le) fun find hfind s _ => by
      rcases mem_append.mp hfind with hfind | hfind
      · obtain ⟨scope, -, rfl⟩ := map_eq_some_iff.mp (mem_toList.mp hfind)
        rfl
      · obtain ⟨x, hx, rfl⟩ := mem_map.mp hfind
        have hargument := hcall.arguments x hx
        unfold word?
        split at hargument
        · rename_i href
          rw [if_pos href]
          exact hsite.address?_isSome _ s hargument l.image
            fun t ht => hcall.numbered x hx href t ht
        · rename_i href
          rw [if_neg href]
          exact hsite.value?_isSome _ s hargument
  have hword : ∀ x : Argument, x.word? a.function.site.layout (σ.store.frames a.base) l.image
      p.assembly.strings.toList = x.word? (a.function.layout rs) (σ.store.frames a.base) l.image
        p.assembly.strings.toList := fun x => by
    have hagrees := hcompiles.layout_agrees htext hr
    funext s
    rw [word?, word?, hagrees.address?_eq, hagrees.value?_eq]
  rw [hesp] at hpiled hruns
  rw [length_append, length_map] at hruns
  unfold Lower.links at hpiled hruns
  unfold linkOf?
  cases hdepth : (calleeLabel g scope).depth with
  | none =>
    simp only [hdepth, map_none, toList_none, nil_append, length_nil]
      at hpiled hruns ⊢
    refine ⟨fun σ1 hrun => ?_, hruns⟩
    obtain ⟨ws, hws, hfound⟩ := hpiled σ1 hrun
    rw [forall₂_map_left_iff] at hfound
    simp only [hword] at hfound
    exact ⟨ws, hws, hfound⟩
  | some depth =>
    simp only [hdepth, map_some, toList_some, singleton_append,
      length_singleton] at hpiled hruns ⊢
    refine ⟨fun σ1 hrun => ?_, hruns⟩
    obtain ⟨ws, hws, hfound⟩ := hpiled σ1 hrun
    cases hfound with
    | @cons _ w _ ws hlink hfound =>
      obtain ⟨_, -, hlink⟩ := hlink
      cases hlink
      rw [forall₂_map_left_iff] at hfound
      simp only [hword] at hfound
      exact ⟨ws, hws, hfound⟩

end Calls

end Invocation

end BlockLang
