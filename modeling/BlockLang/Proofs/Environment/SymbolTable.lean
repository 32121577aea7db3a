import BlockLang.Environment
import Mathlib.Data.List.TakeWhile
import Mathlib.Logic.Function.Iterate

/-!
# Symbol tables

A symbol table keeps the declarations in an arena in the order in which they were made, remembers
for each name the place of its visible declaration, and for each declaration the place of the one
that it hides. Leaving a scope takes declarations from the end of the arena, and each of them gives
its name back to the declaration that it hid. It gives the answers of the environment that it
represents.
-/

namespace BlockLang

open Binding Environment Function List

variable {bs : List Binding} {es : List Entry} {i n : Nat} {x : String}

/-- A declaration in the arena, with the place of the declaration that it hides. -/
structure SymbolTable.Entry extends Binding where
  hidden : Option Nat
  deriving DecidableEq

/-- Declarations in an arena, the earliest first. -/
structure SymbolTable where
  entries : Array SymbolTable.Entry := #[]
  /-- The place of the visible declaration of each name. -/
  places : String → Option Nat := fun _ => none
  scope : Int := -1

namespace SymbolTable

section Operations

variable (t : SymbolTable)

/-! ### Answers -/

/-- The declaration that a name stands for. -/
def find? (x : String) : Option Binding :=
  (t.places x).bind fun i => t.entries[i]?.map Entry.toBinding

/-- The variables of a scope in the order of their declaration. -/
def locals (scope : Int) : List Variable :=
  (t.entries.toList.filter fun e => e.scope = scope).filterMap fun e =>
    match e.declaration with
    | .var v => some v
    | _ => none

/-- The parameters of a scope in the order of their declaration. -/
def parameters (scope : Int) : List Parameter :=
  (t.entries.toList.filter fun e => e.scope = scope).filterMap fun e =>
    match e.declaration with
    | .param p => some p
    | _ => none

/-! ### Changes -/

def enter : SymbolTable := { t with scope := t.scope + 1 }

def declare (d : Declaration) : Except SemanticError SymbolTable :=
  let hidden := t.places d.name
  let conflict := do
    let i ← hidden
    let earlier ← t.entries[i]?
    if earlier.scope = t.scope then conflict? earlier.declaration d else none
  match conflict with
  | some e => .error e
  | none => .ok { t with
      entries := t.entries.push ⟨⟨d, t.scope⟩, hidden⟩
      places := update t.places d.name (some t.entries.size) }

/-- Declares names one after the other. At the first conflict the earlier ones
stay declared. -/
def declareAll : List Declaration → SymbolTable → SymbolTable × Option SemanticError
  | [], t => (t, none)
  | d :: ds, t =>
      match t.declare d with
      | .ok t => declareAll ds t
      | .error e => (t, some e)

/-- Where the innermost scope starts among the first `n` entries: after the last one
of another scope. -/
def startAmong : Nat → Nat
  | 0 => 0
  | n + 1 => if t.entries[n]?.any (·.scope ≠ t.scope) then n + 1 else startAmong n

/-- Takes the last entry from the arena and gives its name back to what it hid. -/
def retract : SymbolTable :=
  match t.entries.back? with
  | none => t
  | some e => { t with
      entries := t.entries.pop
      places := update t.places e.name e.hidden }

def leave : Except SemanticError SymbolTable :=
  let start := t.startAmong t.entries.size
  let functions := (t.entries.toList.drop start).filterMap fun e => e.function?
  let forwards := functions.filter fun f => f.isDefined = false
  match forwards.findSome? (unfulfilled? functions.reverse) with
  | some e => .error e
  | none => .ok { retract^[t.entries.size - start] t with scope := t.scope - 1 }

end Operations

/-! ### Places -/

/-- The place of the latest declaration of a name in a list with the latest in front.
Places are counted from the end. -/
def place? : List Binding → String → Option Nat
  | [], _ => none
  | b :: bs, x => if b.name = x then some bs.length else place? bs x

/-- Every entry of a list with the latest in front remembers the place of the
declaration that it hides. -/
def Linked : List Entry → Prop
  | [] => True
  | e :: es => e.hidden = place? (es.map Entry.toBinding) e.name ∧ Linked es

theorem place?_lt (h : place? bs x = some i) : i < bs.length := by
  induction bs with
  | nil => simp [place?] at h
  | cons b bs ih =>
    by_cases hb : b.name = x
    · simp [place?, hb] at h
      simp [← h]
    · simp only [place?, hb, if_false] at h
      exact Nat.lt_succ_of_lt (ih h)

/-- What stands at the place of a name is the first declaration of the name. -/
theorem bind_place? (bs : List Binding) (x : String) :
    (place? bs x).bind (bs.reverse[·]?) = bs.find? fun b => b.name = x := by
  induction bs with
  | nil => rfl
  | cons b bs ih =>
    by_cases hb : b.name = x
    · simp [place?, hb]
    · rw [find?_cons_of_neg (by simpa using hb), ← ih]
      simp only [place?, hb, if_false, reverse_cons]
      cases hplace : place? bs x with
      | none => rfl
      | some i =>
        have hi := place?_lt hplace
        simp only [Option.bind_some]
        rw [getElem?_append_left (by simpa using hi)]

/-- An entry hides one that stands in front of it. -/
theorem Linked.hidden_lt (h : Linked es) {k j : Nat} {e : Entry} (he : es.reverse[k]? = some e)
    (hj : e.hidden = some j) : j < k := by
  induction es generalizing k with
  | nil => simp at he
  | cons e' es ih =>
    rw [reverse_cons] at he
    by_cases hk : k < es.length
    · rw [getElem?_append_left (by simpa using hk)] at he
      exact ih h.2 he
    · -- past the others only the latest entry is left
      rw [getElem?_append_right (by simpa using hk), getElem?_singleton] at he
      split at he
      · cases he
        have hlt := place?_lt (h.1.symm.trans hj)
        rw [length_map] at hlt
        omega
      · cases he

/-- The links are determined by the declarations. -/
theorem Linked.unique {es' : List Entry} (h : Linked es) (h' : Linked es')
    (hmap : es.map Entry.toBinding = es'.map Entry.toBinding) : es = es' := by
  induction es generalizing es' with
  | nil => exact (map_eq_nil_iff.mp hmap.symm).symm
  | cons e es ih =>
    cases es' with
    | nil => cases hmap
    | cons e' es' =>
      obtain ⟨hbinding, hrest⟩ := cons.inj hmap
      obtain ⟨b, hidden⟩ := e
      obtain ⟨b', hidden'⟩ := e'
      obtain rfl : b = b' := hbinding
      have hhidden : hidden = hidden' := h.1.trans (hrest ▸ h'.1.symm)
      rw [ih h.2 h'.2 hrest, hhidden]

/-! ### Representation -/

/-- A table holds the declarations of an environment, and every place that it remembers
is that of the latest declaration of a name. -/
structure Represents (t : SymbolTable) (env : Environment) : Prop where
  scope : t.scope = env.scope
  bindings : t.entries.toList.reverse.map Entry.toBinding = env.bindings
  places : ∀ x, t.places x = place? env.bindings x
  linked : Linked t.entries.toList.reverse

variable {t t' : SymbolTable} {env env' : Environment}

namespace Represents

theorem empty : Represents {} {} := ⟨rfl, rfl, fun _ => rfl, trivial⟩

variable (h : t.Represents env)

include h

theorem length_eq : env.bindings.length = t.entries.size := by
  simp [← h.bindings]

theorem map_entries : t.entries.toList.map Entry.toBinding = env.bindings.reverse := by
  rw [← h.bindings, map_reverse, reverse_reverse]

theorem place_lt (hi : t.places x = some i) : i < t.entries.size := by
  rw [h.places] at hi
  exact h.length_eq ▸ place?_lt hi

/-- The place that an entry remembers lies in the arena, in front of the entry. -/
theorem hidden_lt {k j : Nat} {e : Entry} (he : t.entries[k]? = some e)
    (hj : e.hidden = some j) : j < k := by
  refine h.linked.hidden_lt ?_ hj
  rwa [reverse_reverse, Array.getElem?_toList]

theorem find? (x : String) : t.find? x = env.find? x := by
  rw [SymbolTable.find?, Environment.find?, ← bind_place?, h.places]
  congr 1
  funext i
  rw [← h.map_entries, getElem?_map, Array.getElem?_toList]

/-- A selection among the entries of a scope gives what it gives among the bindings. -/
theorem ofScope {α : Type} (scope : Int) (f : Binding → Option α) :
    (t.entries.toList.filter fun e => e.scope = scope).filterMap (fun e => f e.toBinding) =
      (env.ofScope scope).filterMap f := by
  rw [Environment.ofScope, ← filter_reverse, ← h.map_entries, filter_map,
    filterMap_map]
  rfl

theorem locals (scope : Int) : t.locals scope = env.locals scope :=
  h.ofScope scope fun b =>
    match b.declaration with
    | .var v => some v
    | _ => none

theorem parameters (scope : Int) : t.parameters scope = env.parameters scope :=
  h.ofScope scope fun b =>
    match b.declaration with
    | .param p => some p
    | _ => none

/-- An environment has one table. -/
theorem unique (h' : t'.Represents env) : t = t' := by
  have hentries : t.entries = t'.entries := by
    apply Array.toList_inj.mp
    apply reverse_inj.mp
    exact h.linked.unique h'.linked (h.bindings.trans h'.bindings.symm)
  have hplaces : t.places = t'.places := by
    funext x
    rw [h.places, h'.places]
  have hscope : t.scope = t'.scope := h.scope.trans h'.scope.symm
  obtain ⟨entries, places, scope⟩ := t
  obtain ⟨entries', places', scope'⟩ := t'
  simp only [mk.injEq]
  exact ⟨hentries, hplaces, hscope⟩

/-! ### Changes of a table and of its environment -/

theorem enter : t.enter.Represents env.enter :=
  ⟨congrArg (· + 1) h.scope, h.bindings, h.places, h.linked⟩

theorem push (d : Declaration) :
    Represents { t with
      entries := t.entries.push ⟨⟨d, t.scope⟩, t.places d.name⟩
      places := update t.places d.name (some t.entries.size) }
      { env with bindings := ⟨d, env.scope⟩ :: env.bindings } where
  scope := h.scope
  bindings := by simp [h.scope, ← h.bindings]
  places x := by
    by_cases hx : d.name = x
    · simp [place?, name, hx, h.length_eq]
    · simp [place?, name, hx, update_of_ne (Ne.symm hx), h.places]
  linked := by
    rw [Array.toList_push, reverse_append]
    exact ⟨h.bindings ▸ h.places d.name, h.linked⟩

/-- A declaration has the same conflict in the table as in the environment. -/
theorem declare (d : Declaration) :
    (∃ e, t.declare d = .error e ∧ env.declare d = .error e) ∨
      ∃ t' env', t.declare d = .ok t' ∧ env.declare d = .ok env' ∧ t'.Represents env' := by
  have hconflict : (do
      let i ← t.places d.name
      let earlier ← t.entries[i]?
      if earlier.scope = t.scope then conflict? earlier.declaration d else none) =
    (do
      let earlier ← env.find? d.name
      if earlier.scope = env.scope then conflict? earlier.declaration d else none) := by
    rw [← h.find?, SymbolTable.find?, h.scope]
    cases t.places d.name with
    | none => rfl
    | some i =>
      cases hi : t.entries[i]? with
      | none => simp [hi]
      | some e => simp [hi]
  unfold SymbolTable.declare Environment.declare
  dsimp only
  rw [hconflict]
  generalize (do
    let earlier ← env.find? d.name
    if earlier.scope = env.scope then conflict? earlier.declaration d else none) =
      conflict
  cases conflict with
  | some e => exact .inl ⟨e, rfl, rfl⟩
  | none => exact .inr ⟨_, _, rfl, rfl, h.push d⟩

theorem declareAll (ds : List Declaration) :
    (SymbolTable.declareAll ds t).1.Represents (Environment.declareAll ds env).1 ∧
      (SymbolTable.declareAll ds t).2 = (Environment.declareAll ds env).2 := by
  induction ds generalizing t env with
  | nil => exact ⟨h, rfl⟩
  | cons d ds ih =>
    obtain ⟨e, ht, henv⟩ | ⟨t', env', ht, henv, h'⟩ := h.declare d
    · simp only [SymbolTable.declareAll, Environment.declareAll, ht, henv, and_true]
      exact h
    · simp only [SymbolTable.declareAll, Environment.declareAll, ht, henv]
      exact ih h'

/-- Taking the last entry back gives the table of the environment without it. -/
theorem retract {b : Binding} {bs : List Binding}
    (hb : env.bindings = b :: bs) : t.retract.Represents { env with bindings := bs } := by
  obtain ⟨entries, places, scope⟩ := t
  -- the arena ends in the entry of the first binding
  obtain ⟨es, e, rfl⟩ : ∃ (es : Array Entry) (e : Entry), entries = es.push e := by
    refine Array.eq_push_of_size_ne_zero fun hsize => ?_
    have hlength := h.length_eq
    simp [hb, hsize] at hlength
  have hbindings := h.bindings
  rw [hb, Array.toList_push, reverse_append, reverse_singleton, singleton_append,
    map_cons] at hbindings
  obtain ⟨rfl, rfl⟩ := cons.inj hbindings
  have hlinked := h.linked
  rw [Array.toList_push, reverse_append] at hlinked
  have hback : (es.push e).back? = some e := Array.back?_push
  refine ⟨?_, ?_, fun x => ?_, ?_⟩ <;> simp only [SymbolTable.retract, hback, Array.pop_push]
  · exact h.scope
  · by_cases hx : x = e.name
    · rw [hx, update_self]
      exact hlinked.1
    · have hplace := h.places x
      simp only [hb, place?] at hplace
      rw [update_of_ne hx, hplace, if_neg (fun hname => hx hname.symm)]
  · exact hlinked.2

/-- Taking entries back one after the other. -/
theorem retract_iterate (hn : n ≤ env.bindings.length) :
    (SymbolTable.retract^[n] t).Represents { env with bindings := env.bindings.drop n } := by
  induction n generalizing t env with
  | zero => exact h
  | succ n ih =>
    cases hb : env.bindings with
    | nil => simp [hb] at hn
    | cons b bs =>
      rw [iterate_succ_apply, drop_succ_cons]
      exact ih (h.retract hb) (by simpa [hb] using hn)

end Represents

/-- Going back from an entry finds the bindings of the innermost scope in front of it. -/
theorem startAmong_eq (hn : n ≤ t.entries.size)
    (hbs : (t.entries.toList.take n).map Entry.toBinding = bs.reverse) :
    t.startAmong n = n - (bs.takeWhile fun b => b.scope = t.scope).length := by
  induction n generalizing bs with
  | zero => simp [startAmong]
  | succ n ih =>
    have hget : t.entries[n]? = some t.entries[n] := Array.getElem?_eq_getElem hn
    rw [take_add_one, Array.getElem?_toList, hget] at hbs
    cases bs with
    | nil => simp at hbs
    | cons b bs =>
      simp only [Option.toList_some, map_append, map_singleton, reverse_cons] at hbs
      obtain ⟨hrest, hlast⟩ := append_inj' hbs rfl
      have hlast : t.entries[n].toBinding = b := head_eq_of_cons_eq hlast
      have hlength : bs.length = n := by
        have hlength := congrArg length hrest
        simp only [length_map, length_take, Array.length_toList,
          length_reverse] at hlength
        omega
      have hle : (bs.takeWhile fun b => b.scope = t.scope).length ≤ bs.length :=
        (takeWhile_sublist _).length_le
      rw [startAmong, hget, Option.any_some, hlast]
      by_cases hscope : b.scope = t.scope
      · simp only [hscope, takeWhile_cons, ne_eq, not_true_eq_false, decide_false,
          Bool.false_eq_true, if_false, decide_true, if_true, length_cons]
        rw [ih (Nat.le_of_succ_le hn) hrest]
        omega
      · simp [hscope]

namespace Represents

variable (h : t.Represents env)

include h

theorem startAmong : t.startAmong t.entries.size = t.entries.size - env.innermost.length := by
  have htake : t.entries.toList.take t.entries.size = t.entries.toList :=
    take_of_length_le (by simp)
  rw [startAmong_eq (Nat.le_refl _) (htake.symm ▸ h.map_entries), innermost, h.scope]

/-- The last entries of the arena are those of the innermost scope. -/
theorem map_innermost :
    (t.entries.toList.drop (t.startAmong t.entries.size)).map Entry.toBinding =
      env.innermost.reverse := by
  have hprefix : env.innermost <+: env.bindings := takeWhile_prefix _
  rw [h.startAmong, map_drop, h.map_entries, ← h.length_eq, ← reverse_take,
    ← prefix_iff_eq_take.mp hprefix]

/-- A scope is left, or not, in the table as in the environment. -/
theorem leave :
    (∃ e, t.leave = .error e ∧ env.leave = .error e) ∨
      ∃ t' env', t.leave = .ok t' ∧ env.leave = .ok env' ∧ t'.Represents env' := by
  have hle : env.innermost.length ≤ env.bindings.length := (takeWhile_sublist _).length_le
  have hcount : t.entries.size - t.startAmong t.entries.size = env.innermost.length := by
    rw [h.startAmong, ← h.length_eq]
    omega
  have hfunctions : (t.entries.toList.drop (t.startAmong t.entries.size)).filterMap
      (fun e => e.function?) = (env.innermost.filterMap function?).reverse := by
    rw [← filterMap_reverse, ← h.map_innermost, filterMap_map]
    rfl
  unfold SymbolTable.leave Environment.leave
  dsimp only
  rw [hfunctions, reverse_reverse, hcount]
  generalize findSome? _ _ = unfulfilled
  cases unfulfilled with
  | some e => exact .inl ⟨e, rfl, rfl⟩
  | none =>
    have hrest := h.retract_iterate hle
    exact .inr ⟨_, _, rfl, rfl, congrArg (· - 1) h.scope, hrest.bindings, hrest.places,
      hrest.linked⟩

end Represents

end SymbolTable

end BlockLang
