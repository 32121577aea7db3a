import BlockLang.Proofs.Code.Continuation
import Mathlib.Logic.Relation
import Mathlib.Order.Nat

/-!
# Temporaries are assigned once

A temporary is written by one quad, the one that computes it or the call whose result it takes.
Between this quad and a use of the temporary there is no target of a jump, so control does not get
to the use without passing through the quad that writes.
-/

namespace BlockLang

open List Option

/-- The temporaries that an operand names. -/
def Operand.temps : Operand → List Nat
  | temp n | cell n => [n]
  | _ => []

namespace Quad

variable (q : Quad)

def temps : List Nat :=
  (q.first.toList ++ q.second.toList ++ q.output.toList).flatMap Operand.temps

/-- The temporary that takes the result of the call behind this quad. -/
def destination? : Option Nat :=
  match q.op, q.first, q.second with
  | .par, some (.temp n), some .returnDestination => some n
  | _, _, _ => none

/-- The temporary that a quad computes. An address is written as such only by the quad that
computes it; for all others it says where a cell is. -/
def computes? : Option Nat :=
  match q.op, q.output with
  | .array, some (.cell n) => some n
  | _, some (.temp n) => some n
  | _, _ => none

/-- The temporaries whose values a quad uses: those that it names and does not write. -/
def reads : List Nat :=
  ((if q.destination?.isSome then [] else q.first.toList ++ q.second.toList) ++
    if q.computes?.isSome then [] else q.output.toList).flatMap Operand.temps

variable {q} {n : Nat}

theorem op_of_destination? (h : q.destination? = some n) :
    q.op = .par ∧ q.first = some (.temp n) ∧ q.second = some .returnDestination := by
  unfold destination? at h
  split at h
  · cases h
    exact ⟨‹_›, ‹_›, ‹_›⟩
  · cases h

theorem output_of_computes? (h : q.computes? = some n) :
    q.output = some (.cell n) ∨ q.output = some (.temp n) := by
  unfold computes? at h
  split at h
  · cases h
    exact .inl ‹_›
  · cases h
    exact .inr ‹_›
  · cases h

/-- A quad uses a temporary that it names, or computes it, or says that a call does. -/
theorem mem_temps (h : n ∈ q.temps) :
    n ∈ q.reads ∨ q.computes? = some n ∨ q.destination? = some n := by
  rw [temps, flatMap_append, mem_append] at h
  rw [reads, flatMap_append, mem_append]
  rcases h with h | h
  · cases hdestination : q.destination? with
    | none => exact .inl (.inl (by simpa using h))
    | some m =>
      obtain ⟨-, hfirst, hsecond⟩ := op_of_destination? hdestination
      simp only [hfirst, hsecond, toList_some, cons_append, nil_append,
        flatMap_cons, Operand.temps, flatMap_nil, append_nil,
        mem_singleton] at h
      exact .inr (.inr (by rw [h]))
  · cases hcomputes : q.computes? with
    | none => exact .inl (.inr (by simpa using h))
    | some m =>
      refine .inr (.inl ?_)
      obtain houtput | houtput := output_of_computes? hcomputes <;>
        simp only [houtput, toList_some, flatMap_cons, Operand.temps,
          flatMap_nil, append_nil, mem_singleton] at h <;> rw [h]

/-- Where a jump leads has nothing to do with temporaries. -/
theorem uses_ledTo (h : q.output = some .pending) (t : Nat) :
    (q.ledTo t).computes? = q.computes? ∧ (q.ledTo t).destination? = q.destination? ∧
      (q.ledTo t).reads = q.reads := by
  obtain ⟨op, a, b, o⟩ := q
  cases h
  have hcomputes : (ledTo ⟨op, a, b, some .pending⟩ t).computes? =
      computes? ⟨op, a, b, some .pending⟩ := by
    cases op <;> rfl
  refine ⟨hcomputes, rfl, ?_⟩
  rw [reads, reads, hcomputes, flatMap_append, flatMap_append,
    show computes? ⟨op, a, b, some .pending⟩ = none by cases op <;> rfl]
  rfl

end Quad

namespace Code

/-- The temporary that a quad writes. A call writes the one that the quad in front of it
names for the result. -/
def writes? (c : Code) (i : Nat) : Option Nat :=
  (c.quads[i]?).bind fun q =>
    if q.op = .call then (c.quads[i - 1]?).bind Quad.destination? else q.computes?

/-- A temporary has been written and no jump leads behind the quad that wrote it. -/
def Live (c : Code) (first n : Nat) : Prop :=
  ∃ w, first ≤ w ∧ c.writes? w = some n ∧ ∀ t, c.isTarget t → t ≤ w

/-- The temporaries from `lo` on are those of the quads from `first` on: each is written by
one of these quads, and used only behind it, with no target of a jump in between. -/
structure Assigned (c : Code) (first lo : Nat) : Prop where
  first_lt : first < c.next
  lo_le : lo ≤ c.temps.size
  targets : ∀ t, c.isTarget t → t ≤ c.next
  written : ∀ n, lo ≤ n → n < c.temps.size → ∃ w, first ≤ w ∧ c.writes? w = some n
  bound : ∀ w n, first ≤ w → c.writes? w = some n → lo ≤ n ∧ n < c.temps.size
  once : ∀ w w' n, first ≤ w → first ≤ w' → c.writes? w = some n → c.writes? w' = some n → w = w'
  destination : ∀ i q n, first ≤ i → c.quads[i]? = some q → q.destination? = some n →
    c.writes? (i + 1) = some n
  read : ∀ u q n, first ≤ u → c.quads[u]? = some q → n ∈ q.reads →
    ∃ w, first ≤ w ∧ w < u ∧ c.writes? w = some n ∧ ∀ t, c.isTarget t → w < t → u < t

/-- The second code is the first with quads appended that write the new temporaries, each
of them once. -/
structure Writes (c c' : Code) : Prop where
  next_le : c.next ≤ c'.next
  below : ∀ i, i < c.next → c'.quads[i]? = c.quads[i]?
  size_le : c.temps.size ≤ c'.temps.size
  isTarget : ∀ t, c'.isTarget t = c.isTarget t
  written : ∀ n, c.temps.size ≤ n → n < c'.temps.size → ∃ w, c.next ≤ w ∧ c'.writes? w = some n
  bound : ∀ w n, c.next ≤ w → c'.writes? w = some n → c.temps.size ≤ n ∧ n < c'.temps.size
  once : ∀ w w' n, c.next ≤ w → c.next ≤ w' → c'.writes? w = some n → c'.writes? w' = some n →
    w = w'
  destination : ∀ i q n, c.next ≤ i → c'.quads[i]? = some q → q.destination? = some n →
    c'.writes? (i + 1) = some n

variable {c c1 c' : Code} {first lo i n : Nat} {q : Quad}

theorem lt_next_of_writes? (h : c.writes? i = some n) : i < c.next := by
  obtain ⟨q, hq, -⟩ := bind_eq_some_iff.mp h
  exact lt_next_of_getElem? hq

theorem writes?_congr (h : c'.quads[i]? = c.quads[i]?) (h' : c'.quads[i - 1]? = c.quads[i - 1]?) :
    c'.writes? i = c.writes? i := by
  rw [writes?, writes?, h, h']

/-- What a quad writes does not depend on the quads behind it. -/
theorem writes?_of_below (h : ∀ i, i < c.next → c'.quads[i]? = c.quads[i]?) (hi : i < c.next) :
    c'.writes? i = c.writes? i :=
  writes?_congr (h i hi) (h (i - 1) (by omega))

/-- What a quad writes does not depend on where jumps lead. -/
theorem Continues.uses (h : c.Continues c') (hq : c.quads[i]? = some q) :
    ∃ q', c'.quads[i]? = some q' ∧ q'.op = q.op ∧ q'.computes? = q.computes? ∧
      q'.destination? = q.destination? ∧ q'.reads = q.reads := by
  obtain hq' | ⟨hpending, t, hq'⟩ := h.quad i q hq
  · exact ⟨q, hq', rfl, rfl, rfl, rfl⟩
  · exact ⟨_, hq', rfl, Quad.uses_ledTo hpending t⟩

theorem Continues.writes? (h : c.Continues c') (hi : i < c.next) :
    c'.writes? i = c.writes? i := by
  have hi' : i - 1 < c.next := by omega
  obtain ⟨q, hq, hop, hcomputes, -⟩ := h.uses (Array.getElem?_eq_getElem hi)
  obtain ⟨r, hr, -, -, hdestination, -⟩ := h.uses (Array.getElem?_eq_getElem hi')
  rw [Code.writes?, Code.writes?, hq, hr, Array.getElem?_eq_getElem hi,
    Array.getElem?_eq_getElem hi']
  simp only [bind_some, hop, hcomputes, hdestination]

/-! ### Appended quads -/

namespace Writes

theorem writes?_of_lt (h : c.Writes c') (hi : i < c.next) : c'.writes? i = c.writes? i :=
  writes?_of_below h.below hi

/-- A quad is appended. It writes nothing, or a temporary that has been taken for it. -/
theorem push (hquads : c1.quads = c.quads) (htargets : c1.targets = c.targets)
    (hq : q.destination? = none)
    (h : (c1.push q).writes? c.next = none ∧ c1.temps.size = c.temps.size ∨
      (c1.push q).writes? c.next = some c.temps.size ∧ c1.temps.size = c.temps.size + 1) :
    c.Writes (c1.push q) := by
  have hnext : c1.next = c.next := congrArg Array.size hquads
  -- only the new quad stands at or behind the end of the first code
  have hlast : ∀ w m, c.next ≤ w → (c1.push q).writes? w = some m → w = c.next :=
    fun w m hw hm => by
      have hlt := lt_next_of_writes? hm
      rw [next_push, hnext] at hlt
      omega
  exact {
    next_le := by rw [next_push, hnext]; exact Nat.le_succ _
    below := fun i hi => by rw [getElem?_push_of_lt (hnext ▸ hi), hquads]
    size_le := by rw [temps_push]; omega
    isTarget := fun t => congrArg (·.contains t) htargets
    written := fun n hlow hhigh => by
      rw [temps_push] at hhigh
      obtain ⟨-, hsize⟩ | ⟨hwrites, hsize⟩ := h
      · omega
      · exact ⟨c.next, Nat.le_refl _, by rw [hwrites]; congr 1; omega⟩
    bound := fun w n hw hn => by
      rw [hlast w n hw hn] at hn
      rw [temps_push]
      obtain ⟨hwrites, hsize⟩ | ⟨hwrites, hsize⟩ := h
      · cases hwrites.symm.trans hn
      · obtain rfl := some.inj (hwrites.symm.trans hn)
        omega
    once := fun w w' n hw hw' hn hn' => by rw [hlast w n hw hn, hlast w' n hw' hn']
    destination := fun i r n hi hr hn => by
      obtain ⟨-, rfl⟩ := eq_of_getElem?_push (hnext ▸ hi) hr
      cases hq.symm.trans hn }

end Writes

theorem writes?_of_getElem? (hq : c.quads[i]? = some q) (hop : q.op ≠ .call) :
    c.writes? i = q.computes? := by
  rw [writes?, hq, bind_some, if_neg hop]

theorem writes?_push (hop : q.op ≠ .call) : (c.push q).writes? c.next = q.computes? :=
  writes?_of_getElem? getElem?_push_next hop

namespace Live

theorem of_writes (h : c.Live first n) (hw : c.Writes c') : c'.Live first n := by
  obtain ⟨w, hfirst, hwrites, htargets⟩ := h
  refine ⟨w, hfirst, ?_, fun t ht => htargets t (by rwa [← hw.isTarget])⟩
  rw [hw.writes?_of_lt (lt_next_of_writes? hwrites), hwrites]

end Live

namespace Assigned

variable (h : c.Assigned first lo)

include h

theorem live (hw : c.Writes c') (hlow : c.temps.size ≤ n) (hhigh : n < c'.temps.size) :
    c'.Live first n := by
  obtain ⟨w, hnext, hwrites⟩ := hw.written n hlow hhigh
  refine ⟨w, h.first_lt.le.trans hnext, hwrites, fun t ht => ?_⟩
  rw [hw.isTarget] at ht
  exact (h.targets t ht).trans hnext

/-- Quads are appended that use live temporaries and write new ones. -/
theorem append (hw : c.Writes c')
    (hreads : ∀ u q n, c.next ≤ u → c'.quads[u]? = some q → n ∈ q.reads → c.Live first n) :
    c'.Assigned first lo := by
  have hkeep : ∀ {w n}, c.writes? w = some n → c'.writes? w = some n := fun hwrites => by
    rw [hw.writes?_of_lt (lt_next_of_writes? hwrites), hwrites]
  -- a quad that writes is an old one or a new one, and so is what it writes
  have hcases : ∀ w n, first ≤ w → c'.writes? w = some n →
      (w < c.next ∧ c.writes? w = some n ∧ lo ≤ n ∧ n < c.temps.size) ∨
        (c.next ≤ w ∧ c.temps.size ≤ n ∧ n < c'.temps.size) := fun w n hfirst hwrites => by
    by_cases hlt : w < c.next
    · rw [hw.writes?_of_lt hlt] at hwrites
      exact .inl ⟨hlt, hwrites, h.bound w n hfirst hwrites⟩
    · have hle := Nat.le_of_not_lt hlt
      exact .inr ⟨hle, hw.bound w n hle hwrites⟩
  exact {
    first_lt := h.first_lt.trans_le hw.next_le
    lo_le := h.lo_le.trans hw.size_le
    targets := fun t ht => (h.targets t (by rwa [← hw.isTarget])).trans hw.next_le
    written := fun n hlow hhigh => by
      by_cases hold : n < c.temps.size
      · obtain ⟨w, hfirst, hwrites⟩ := h.written n hlow hold
        exact ⟨w, hfirst, hkeep hwrites⟩
      · obtain ⟨w, hnext, hwrites⟩ := hw.written n (Nat.le_of_not_lt hold) hhigh
        exact ⟨w, h.first_lt.le.trans hnext, hwrites⟩
    bound := fun w n hfirst hwrites => by
      obtain ⟨-, -, hlow, hhigh⟩ | ⟨-, hlow, hhigh⟩ := hcases w n hfirst hwrites
      · exact ⟨hlow, hhigh.trans_le hw.size_le⟩
      · exact ⟨h.lo_le.trans hlow, hhigh⟩
    once := fun w w' n hfirst hfirst' hwrites hwrites' => by
      obtain ⟨-, hold, -, hhigh⟩ | ⟨hnew, hlow, -⟩ := hcases w n hfirst hwrites <;>
        obtain ⟨-, hold', -, hhigh'⟩ | ⟨hnew', hlow', -⟩ := hcases w' n hfirst' hwrites'
      · exact h.once w w' n hfirst hfirst' hold hold'
      · omega
      · omega
      · exact hw.once w w' n hnew hnew' hwrites hwrites'
    destination := fun i q n hfirst hq hn => by
      by_cases hlt : i < c.next
      · rw [hw.below i hlt] at hq
        exact hkeep (h.destination i q n hfirst hq hn)
      · exact hw.destination i q n (Nat.le_of_not_lt hlt) hq hn
    read := fun u q n hfirst hq hn => by
      by_cases hlt : u < c.next
      · rw [hw.below u hlt] at hq
        obtain ⟨w, hw', hwu, hwrites, htargets⟩ := h.read u q n hfirst hq hn
        exact ⟨w, hw', hwu, hkeep hwrites, fun t ht => htargets t (by rwa [← hw.isTarget])⟩
      · -- no target stands behind the quad that wrote what is live
        obtain ⟨w, hw', hwrites, htargets⟩ := hreads u q n (Nat.le_of_not_lt hlt) hq hn
        refine ⟨w, hw', (lt_next_of_writes? hwrites).trans_le (Nat.le_of_not_lt hlt),
          hkeep hwrites, fun t ht hwt => ?_⟩
        rw [hw.isTarget] at ht
        exact absurd (htargets t ht) (Nat.not_le.mpr hwt) }

/-- Jumps are led to the next quad or to a quad that is a target already. -/
theorem of_continues (hc : c.Continues c') (hnext : c'.next = c.next)
    (hsize : c'.temps.size = c.temps.size)
    (htargets : ∀ t, c'.isTarget t → c.isTarget t ∨ t = c.next) : c'.Assigned first lo := by
  have hwrites : ∀ w, c'.writes? w = c.writes? w := fun w => by
    by_cases hlt : w < c.next
    · exact hc.writes? hlt
    · have hnone : ∀ {d : Code}, d.next = c.next → d.writes? w = none := fun {d} hd =>
        eq_none_iff_forall_ne_some.mpr fun n hn => by
          have hlt' := lt_next_of_writes? hn
          omega
      rw [hnone hnext, hnone rfl]
  -- a quad uses what it used before
  have huses : ∀ (i : Nat) (q : Quad), c'.quads[i]? = some q → ∃ r : Quad, c.quads[i]? = some r ∧
      q.destination? = r.destination? ∧ q.reads = r.reads := fun i q hq => by
    have hlt := lt_next_of_getElem? hq
    rw [hnext] at hlt
    obtain ⟨q', hq', -, -, hdestination, hreads⟩ := hc.uses (Array.getElem?_eq_getElem hlt)
    cases hq.symm.trans hq'
    exact ⟨_, Array.getElem?_eq_getElem hlt, hdestination, hreads⟩
  exact {
    first_lt := hnext ▸ h.first_lt
    lo_le := hsize ▸ h.lo_le
    targets := fun t ht => by
      rw [hnext]
      exact (htargets t ht).elim (h.targets t) Nat.le_of_eq
    written := fun n hlow hhigh => by
      rw [hsize] at hhigh
      simpa only [hwrites] using h.written n hlow hhigh
    bound := fun w n hfirst hn => by
      rw [hwrites] at hn
      rw [hsize]
      exact h.bound w n hfirst hn
    once := by simpa only [hwrites] using h.once
    destination := fun i q n hfirst hq hn => by
      obtain ⟨r, hr, hdestination, -⟩ := huses i q hq
      rw [hwrites]
      exact h.destination i r n hfirst hr (hdestination ▸ hn)
    read := fun u q n hfirst hq hn => by
      obtain ⟨r, hr, -, hreads⟩ := huses u q hq
      obtain ⟨w, hw, hwu, hwn, hbetween⟩ := h.read u r n hfirst hr (hreads ▸ hn)
      refine ⟨w, hw, hwu, by rw [hwrites, hwn], fun t ht hwt => ?_⟩
      rcases htargets t ht with ht | rfl
      · exact hbetween t ht hwt
      · exact lt_next_of_getElem? hr }

/-- A quad is appended that uses live temporaries. -/
theorem push (hw : c.Writes (c1.push q)) (hnext : c1.next = c.next)
    (hreads : ∀ n ∈ q.reads, c.Live first n) : (c1.push q).Assigned first lo := by
  refine h.append hw fun u r n hu hr hn => ?_
  obtain ⟨-, rfl⟩ := eq_of_getElem?_push (hnext.trans_le hu) hr
  exact hreads n hn

/-- A quad is appended that writes no temporary. -/
theorem pushPlain (hq : q.destination? = none) (hwrites : (c.push q).writes? c.next = none)
    (hreads : ∀ n ∈ q.reads, c.Live first n) : (c.push q).Assigned first lo :=
  h.push (.push rfl rfl hq (.inl ⟨hwrites, rfl⟩)) rfl hreads

/-- A quad is appended that computes a new temporary. -/
theorem pushNew (hquads : c1.quads = c.quads) (htargets : c1.targets = c.targets)
    (hsize : c1.temps.size = c.temps.size + 1) (hop : q.op ≠ .call) (hq : q.destination? = none)
    (hcomputes : q.computes? = some c.temps.size) (hreads : ∀ n ∈ q.reads, c.Live first n) :
    (c1.push q).Assigned first lo ∧ (c1.push q).Live first c.temps.size := by
  have hnext : c1.next = c.next := congrArg Array.size hquads
  have hwrites : (c1.push q).writes? c.next = some c.temps.size := by
    rw [← hnext, writes?_push hop, hcomputes]
  have hw : c.Writes (c1.push q) := .push hquads htargets hq (.inr ⟨hwrites, hsize⟩)
  refine ⟨h.push hw hnext hreads, h.live hw (Nat.le_refl _) ?_⟩
  rw [temps_push, hsize]
  exact Nat.lt_succ_self _

/-- A call is behind the quad that names a temporary for its result, so a call that is
appended on its own has none. -/
theorem writes?_pushCall (hop : q.op = .call) : (c.push q).writes? c.next = none := by
  have hlt : c.next - 1 < c.next := Nat.sub_one_lt_of_lt h.first_lt
  rw [writes?, getElem?_push_next, bind_some, if_pos hop, getElem?_push_of_lt hlt,
    Array.getElem?_eq_getElem hlt, bind_some]
  refine eq_none_iff_forall_ne_some.mpr fun n hn => ?_
  have hwrites := h.destination _ _ n (Nat.le_sub_one_of_lt h.first_lt)
    (Array.getElem?_eq_getElem hlt) hn
  have hlt' := lt_next_of_writes? hwrites
  omega

/-- Pending jumps are led to the next quad or to a target. -/
theorem patch {l : List Nat} {t : Nat} (hc : c.Continues (c.patch l t))
    (ht : c.isTarget t ∨ t = c.next) : (c.patch l t).Assigned first lo := by
  refine h.of_continues hc (next_patch l) (by rw [temps_patch]) fun u hu => ?_
  obtain hu | ⟨rfl, -⟩ := (isTarget_patch l).mp hu
  · exact .inl hu
  · exact ht

theorem markHere : (c.mark c.next).Assigned first lo := by
  refine h.of_continues ⟨⟨fun _ _ h => h, fun _ _ => rfl⟩, fun _ _ h => .inl h⟩ rfl rfl
    fun t ht => ?_
  exact (isTarget_mark.mp ht).symm

end Assigned

/-! ### Control -/

/-- Control does not get past a quad without leaving it, as far as no jump leads behind it. -/
theorem not_passes {w u : Nat} (hw : first ≤ w) (hwu : w < u)
    (hjumps : ∀ i t, c.JumpsTo i t → w < t → u < t) :
    ¬ Relation.ReflTransGen (fun i j => i ≠ w ∧ ∃ outcome, c.follow? outcome i = some j)
      first u := by
  -- control stays in front of the quad, or gets past the other one
  have houtside : ∀ j, Relation.ReflTransGen
      (fun i j => i ≠ w ∧ ∃ outcome, c.follow? outcome i = some j) first j → j ≤ w ∨ u < j := by
    intro j hj
    induction hj with
    | refl => exact .inl hw
    | @tail i j _ hstep ih =>
      obtain ⟨hne, outcome, hstep⟩ := hstep
      obtain rfl | hjump := follow?_cases hstep
      · omega
      · have := hjumps i j hjump
        omega
  intro hway
  have := houtside u hway
  omega

end Code

end BlockLang
