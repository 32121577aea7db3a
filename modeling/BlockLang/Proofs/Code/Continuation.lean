import BlockLang.Proofs.Code.Growth

/-!
# Continuations of code

While a function is translated its code is continued: quads are appended and pending jumps are led
to their targets. A quad that is not pending stays as it is, so what a part does can be said in
terms of the completed code.
-/

namespace BlockLang

open List Option Quad

namespace Code

/-- The second code has the quads and temporaries of the first, except that pending
jumps may have been led to targets. -/
structure Continues (c c' : Code) : Prop where
  ext : c.Extends c'
  quad : ∀ (i : Nat) (q : Quad), c.quads[i]? = some q →
    c'.quads[i]? = some q ∨ q.output = some .pending ∧ ∃ t, c'.quads[i]? = some (q.ledTo t)

/-- The listed quads have a target. -/
def Leads (c : Code) (l : List Nat) (t : Nat) : Prop :=
  ∀ i ∈ l, ∃ q, c.quads[i]? = some q ∧ q.output = some (.target t)

variable {c c1 c2 : Code} {l l' : List Nat} {i t : Nat} {q : Quad}

theorem Leads.left (h : c.Leads (l ++ l') t) : c.Leads l t :=
  fun i hi => h i (mem_append_left l' hi)

theorem Leads.right (h : c.Leads (l ++ l') t) : c.Leads l' t :=
  fun i hi => h i (mem_append_right l hi)

namespace Continues

theorem refl (c : Code) : c.Continues c := ⟨.refl c, fun _ _ h => .inl h⟩

theorem trans (h : c.Continues c1) (h' : c1.Continues c2) : c.Continues c2 where
  ext := h.ext.trans h'.ext
  quad i q hq := by
    rcases h.quad i q hq with hq1 | ⟨hp, t, hq1⟩
    · exact h'.quad i q hq1
    · -- a jump that has been led to a target is not pending any more
      rcases h'.quad i _ hq1 with hq2 | ⟨hp1, -⟩
      · exact .inr ⟨hp, t, hq2⟩
      · cases hp1

/-- Quads that are not pending stay as they are. -/
theorem of_not_pending (h : c.Continues c1) (hq : c.quads[i]? = some q)
    (hp : q.output ≠ some .pending) : c1.quads[i]? = some q :=
  (h.quad i q hq).resolve_right fun hpending => hp hpending.1

/-- A pending quad is led to the target that it has in the end. -/
theorem of_pending (h : c.Continues c1) (hq : c.quads[i]? = some q)
    (hp : q.output = some .pending) (hl : c1.Leads l t) (hi : i ∈ l) :
    c1.quads[i]? = some (q.ledTo t) := by
  obtain ⟨r, hr, hout⟩ := hl i hi
  rcases h.quad i q hq with hq1 | ⟨-, u, hq1⟩
  · rw [hr] at hq1
    cases hq1
    rw [hp] at hout
    cases hout
  · rw [hr] at hq1
    cases hq1
    cases hout
    exact hr

theorem next_le (h : c.Continues c1) : c.next ≤ c1.next := by
  by_contra hlt
  have hq : c.quads[c1.next]? = some _ := Array.getElem?_eq_getElem (Nat.lt_of_not_le hlt)
  rcases h.quad _ _ hq with hq1 | ⟨-, t, hq1⟩
  · exact absurd (lt_next_of_getElem? hq1) (Nat.lt_irrefl _)
  · exact absurd (lt_next_of_getElem? hq1) (Nat.lt_irrefl _)

theorem leads (h : c.Continues c1) (hl : c.Leads l t) : c1.Leads l t := by
  intro i hi
  obtain ⟨q, hq, hout⟩ := hl i hi
  exact ⟨q, h.of_not_pending hq (by rw [hout]; nofun), hout⟩

/-! ### Single changes -/

theorem push (c : Code) (q : Quad) : c.Continues (c.push q) where
  ext := ⟨fun _ _ h => h, fun _ _ => rfl⟩
  quad _ _ hq := .inl ((getElem?_push_of_lt (lt_next_of_getElem? hq)).trans hq)

theorem pushAll (c : Code) (qs : List Quad) : c.Continues (c.pushAll qs) := by
  induction qs generalizing c with
  | nil => exact pushAll_nil.symm ▸ refl c
  | cons q qs ih => exact pushAll_cons qs ▸ (push c q).trans (ih _)

theorem newTemp (c : Code) (ty : Ty) : c.Continues (c.newTemp ty) :=
  ⟨.newTemp c ty, fun _ _ h => .inl h⟩

theorem newCell (c : Code) (ty : Ty) (info : CellInfo) :
    c.Continues ((c.newTemp ty).describe c.temps.size info) :=
  ⟨.newCell c ty info, fun _ _ h => .inl h⟩

theorem mark (c : Code) (t : Nat) : c.Continues (c.mark t) :=
  ⟨⟨fun _ _ h => h, fun _ _ => rfl⟩, fun _ _ h => .inl h⟩

end Continues

variable {env : Environment} {lo : Nat}

theorem Grows.continues (h : c.Grows env lo c1 l) : c.Continues c1 :=
  ⟨h.ext, fun i _ hq => .inl ((h.below i (lt_next_of_getElem? hq)).trans hq)⟩

/-- Pending jumps may be led to a target. -/
theorem Grows.continues_patch (h : c.Grows env lo c1 l) (hl : l' ⊆ l) (t : Nat) :
    c1.Continues (c1.patch l' t) where
  ext := ⟨fun n ty hn => by rwa [temps_patch], fun n _ => cell?_patch l' n⟩
  quad i q hq := by
    by_cases hi : i ∈ l'
    · obtain ⟨r, hr, hp⟩ := ((h.mem_iff i).mp (hl hi)).2
      rw [hq] at hr
      cases hr
      exact .inr ⟨hp, t, by rw [getElem?_patch_of_mem hi, hq]; rfl⟩
    · exact .inl (by rw [getElem?_patch_of_not_mem hi, hq])

/-- Patched jumps lead to their target. -/
theorem Grows.leads_patch (h : c.Grows env lo c1 l) (hl : l' ⊆ l) (t : Nat) :
    (c1.patch l' t).Leads l' t := by
  intro i hi
  obtain ⟨q, hq, -⟩ := ((h.mem_iff i).mp (hl hi)).2
  exact ⟨q.ledTo t, by rw [getElem?_patch_of_mem hi, hq]; rfl, rfl⟩

/-- Quads stand in a row from a number on. -/
def Stands (c : Code) (n : Nat) (qs : List Quad) : Prop :=
  ∀ (k : Nat) (q : Quad), qs[k]? = some q → c.quads[n + k]? = some q

namespace Stands

variable {n : Nat} {qs rs : List Quad}

theorem head (h : c.Stands n (q :: qs)) : c.quads[n]? = some q := h 0 q rfl

theorem tail (h : c.Stands n (q :: qs)) : c.Stands (n + 1) qs := by
  intro k r hr
  have hk := h (k + 1) r hr
  rwa [← Nat.add_assoc, Nat.add_right_comm] at hk

theorem left (h : c.Stands n (qs ++ rs)) : c.Stands n qs := by
  intro k r hr
  refine h k r ?_
  rw [getElem?_append_left (List.getElem?_eq_some_iff.mp hr).1, hr]

theorem right (h : c.Stands n (qs ++ rs)) : c.Stands (n + qs.length) rs := by
  intro k r hr
  rw [Nat.add_assoc]
  refine h _ r ?_
  rw [getElem?_append_right (Nat.le_add_right _ _), Nat.add_sub_cancel_left, hr]

/-- Quads that have been appended and are not pending. -/
theorem of_pushAll (h : (c.pushAll qs).Continues c1) (hqs : ∀ q ∈ qs, q.output ≠ some .pending) :
    c1.Stands c.next qs := by
  intro k r hr
  refine h.of_not_pending ?_ (hqs r (mem_of_getElem? hr))
  rw [getElem?_pushAll, if_neg (by omega), Nat.add_sub_cancel_left, hr]

end Stands

end Code

/-! ### Control -/

def Quad.target? (q : Quad) : Option Nat :=
  match q.output with
  | some (.target t) => some t
  | _ => none

namespace Code

variable (c : Code) (outcome : Nat → Bool)

def relation? (i : Nat) : Option Relation :=
  match (c.quads[i]?).map op with
  | some (.compare r) => some r
  | _ => none

def isComparison (i : Nat) : Bool := (c.relation? i).isSome

/-- The comparisons from one quad up to another, in order. -/
def comparisonsIn (first next : Nat) : List Nat :=
  (List.range' first (next - first)).filter c.isComparison

/-- Where control goes from a quad if comparisons have the given outcomes. It goes nowhere
from a pending jump that is taken, and from the quads that leave a function. -/
def follow? (i : Nat) : Option Nat :=
  (c.quads[i]?).bind fun q =>
    match q.op with
    | .jump => q.target?
    | .compare _ => if outcome i then q.target? else some (i + 1)
    | .ret | .endUnit => none
    | _ => some (i + 1)

/-- Control passes through the quads of a path, from the first of them on, and arrives. -/
inductive Walk : Nat → List Nat → Nat → Prop
  | nil (i : Nat) : Walk i [] i
  | cons {i j k : Nat} {path : List Nat} (hstep : c.follow? outcome i = some j)
      (rest : Walk j path k) : Walk i (i :: path) k

/-- A quad jumps: it is a jump, or a comparison whose relation holds. -/
def Takes (i : Nat) : Prop :=
  ∃ q, c.quads[i]? = some q ∧ (q.op = .jump ∨ (∃ r, q.op = .compare r) ∧ outcome i = true)

variable {c outcome} {i j k t : Nat} {path path' : List Nat} {q : Quad}

/-! ### Ways -/

namespace Walk

theorem trans (h : c.Walk outcome i path j) (h' : c.Walk outcome j path' k) :
    c.Walk outcome i (path ++ path') k := by
  induction h with
  | nil i => exact h'
  | cons hstep _ ih => exact .cons hstep (ih h')

theorem step (h : c.Walk outcome i path j) (hstep : c.follow? outcome j = some k) :
    c.Walk outcome i (path ++ [j]) k := h.trans (.cons hstep (.nil k))

/-- There is one way to a quad from which control goes nowhere. -/
theorem unique (h : c.Walk outcome i path j) (hj : c.follow? outcome j = none)
    (h' : c.Walk outcome i path' k) (hk : c.follow? outcome k = none) :
    path' = path ∧ k = j := by
  induction h generalizing path' with
  | nil i =>
    cases h' with
    | nil => exact ⟨rfl, rfl⟩
    | cons hstep _ => cases hj.symm.trans hstep
  | cons hstep _ ih =>
    cases h' with
    | nil => cases hk.symm.trans hstep
    | cons hstep' rest' =>
      cases hstep.symm.trans hstep'
      obtain ⟨rfl, rfl⟩ := ih hj rest'
      exact ⟨rfl, rfl⟩

/-- Control passes through quads from which it goes on to the next. -/
theorem straight (h : ∀ m, i ≤ m → m < i + k → c.follow? outcome m = some (m + 1)) :
    c.Walk outcome i (List.range' i k) (i + k) := by
  induction k generalizing i with
  | zero => exact .nil i
  | succ k ih =>
    have hrest := ih (i := i + 1) fun m hm hm' => h m (by omega) (by omega)
    rw [Nat.add_assoc, Nat.add_comm 1 k] at hrest
    exact .cons (h i (Nat.le_refl _) (by omega)) hrest

end Walk

/-! ### Comparisons -/

theorem comparisonsIn_append (hij : i ≤ j) (hjk : j ≤ k) :
    c.comparisonsIn i k = c.comparisonsIn i j ++ c.comparisonsIn j k := by
  have hlength : k - i = (j - i) + (k - j) := by omega
  rw [comparisonsIn, hlength, ← range'_append_1, filter_append, Nat.add_sub_cancel' hij]
  rfl

theorem pairwise_comparisonsIn (first next : Nat) :
    (c.comparisonsIn first next).Pairwise (· < ·) := (pairwise_lt_range' ..).filter _

/-- Among quads that compare nothing there are no comparisons. -/
theorem comparisonsIn_eq_nil (h : ∀ m, i ≤ m → m < j → c.relation? m = none) :
    c.comparisonsIn i j = [] := by
  refine filter_eq_nil_iff.mpr fun m hm => ?_
  obtain ⟨hle, hlt⟩ := mem_range'_1.mp hm
  simp [isComparison, h m hle (by omega)]

theorem relation?_of_getElem? (h : c.quads[i]? = some q) :
    c.relation? i = match q.op with | .compare r => some r | _ => none := by
  rw [relation?, h, map_some]
  cases q.op <;> rfl

theorem follow?_of_takes (h : c.Takes outcome i) (hq : c.quads[i]? = some q) :
    c.follow? outcome i = q.target? := by
  obtain ⟨r, hr, hop⟩ := h
  rw [hq] at hr
  cases hr
  rw [follow?, hq, bind_some]
  obtain hop | ⟨⟨r, hop⟩, houtcome⟩ := hop
  · rw [hop]
  · simp only [hop, houtcome, if_true]

/-- A jump that is taken goes to where it has been led. -/
theorem follow?_of_leads {l : List Nat} (h : c.Takes outcome i) (hl : c.Leads l t) (hi : i ∈ l) :
    c.follow? outcome i = some t := by
  obtain ⟨q, hq, hout⟩ := hl i hi
  rw [follow?_of_takes h hq, target?, hout]

/-- A pending jump that is taken leads nowhere. -/
theorem follow?_of_isPending (h : c.Takes outcome i) (hi : c.IsPending i) :
    c.follow? outcome i = none := by
  obtain ⟨q, hq, hout⟩ := hi
  rw [follow?_of_takes h hq, target?, hout]

theorem follow?_cases (h : c.follow? outcome i = some j) : j = i + 1 ∨ c.JumpsTo i j := by
  obtain ⟨q, hq, hstep⟩ := bind_eq_some_iff.mp h
  have htarget : q.op.IsBranch → q.target? = some j → c.JumpsTo i j := fun hop ht => by
    refine ⟨q, hq, hop, ?_⟩
    unfold target? at ht
    split at ht
    · cases ht
      assumption
    · cases ht
  split at hstep
  · exact .inr (htarget (.inl ‹_›) hstep)
  · split at hstep
    · exact .inr (htarget (.inr ⟨_, ‹_›⟩) hstep)
    · exact .inl (some.inj hstep).symm
  · cases hstep
  · cases hstep
  · exact .inl (some.inj hstep).symm

end Code

end BlockLang
