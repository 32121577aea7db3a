import BlockLang.Proofs.Assembly.Lower
import BlockLang.Proofs.Processor.Quad

/-!
# Operands with a meaning

A frame has places for all variables and temporaries of its function. So every operand
that can play its part has a value, an address or a cell to be written to, and a quad has
an effect unless it divides by zero or the quotient does not fit.
-/

namespace BlockLang

open Layout Option

/-- A quad divides where there is no quotient. -/
def Layout.Traps (l : Layout) (base : Nat → Word) (s : Store) (q : Quad) : Prop :=
  ∃ operator x y a b, q.op = .arith operator ∧ q.first = some x ∧ q.second = some y ∧
    l.value? base s x = some a ∧ l.value? base s y = some b ∧ operator.compute? a b = none

/-! ### Divisions without a result -/

namespace Lower

variable {site : FunctionSite} {depth : Nat}

/-- The lines of a division cannot all be run if there is no result. -/
theorem arith_traps (image : Image) (base : Nat → Word) (hsite : site.Reaching depth)
    (operator : Arith) (x y z : Operand) :
    Adds (quad site ⟨.arith operator, some x, some y, some z⟩) fun _ _ lines =>
      ∀ σ : Processor, σ.Running base depth →
        site.layout.Traps base σ.store ⟨.arith operator, some x, some y, some z⟩ →
          σ.runAll? image lines = none := by
  have hdivide : ∀ r : Register, operator = .div ∨ operator = .mod → Adds (do
      load site x .eax
      emit .cdq
      load site y .ebx
      emit (.idiv .ebx)
      store site z r) fun _ _ lines => ∀ σ : Processor, σ.Running base depth →
        site.layout.Traps base σ.store ⟨.arith operator, some x, some y, some z⟩ →
          σ.runAll? image lines = none := by
    intro r hr
    refine (adds_seq (load_finds image base hsite x (r := .eax) rfl) (adds_seq (emit_adds _)
      (adds_seq (load_finds image base hsite y (r := .ebx) rfl)
        (adds_seq (emit_adds _) (basic_store z r).adds)))).mono ?_
    rintro strings _ _ ⟨l, _, rfl, hl, _, _, rfl, rfl, l', _, rfl, hl', _, l'', rfl, rfl, -⟩ σ hσ
      ⟨_, _, _, a, b, hop, hx, hy, ha, hb, hnone⟩
    cases hop
    cases hx
    cases hy
    obtain ⟨σ', hrun, -, hexec⟩ := hl.dividend hl' hσ ha hb
    -- neither the quotient nor the remainder has a value
    have htrap : Arith.compute? .div a b = none := by
      obtain rfl | rfl := hr
      · exact hnone
      · simpa [Arith.compute?] using hnone
    have hlines : l ++ ([.cdq] ++ (l' ++ ([.idiv .ebx] ++ l''))) =
        (l ++ [.cdq] ++ l') ++ (.idiv .ebx :: l'') := by simp
    rw [hlines, Processor.runAll?, List.foldlM_append]
    refine bind_eq_none_iff.mpr fun σ1 hσ1 => ?_
    cases hrun.symm.trans hσ1
    exact congrArg (bind · _) (hexec.trans (congrArg (bind · _) htrap))
  cases operator with
  | div => exact hdivide .eax (.inl rfl)
  | mod => exact hdivide .edx (.inr rfl)
  | _ =>
    refine (quad_uses _).mono ?_
    rintro _ _ _ - σ - ⟨_, _, _, _, _, hop, -, -, -, -, hnone⟩
    cases hop
    cases hnone

end Lower

/-! ### Literals -/

namespace Lower

variable {site : FunctionSite}

/-- A literal whose address is taken has a number in the end. -/
theorem address_literal (o : Operand) : Adds (address site o) fun strings _ _ =>
    ∀ t, o = .string t → (strings.idxOf? t).isSome := by
  cases o with
  | string t =>
    refine adds_bind (adds_stringNumber (P := fun strings n _ => strings.idxOf? t = some n)
      fun _ _ h => h) (fun _ => emit_adds _) ?_
    rintro strings n _ l l' hn - _ ⟨⟩
    rw [hn]
    rfl
  | _ => exact (plain_address _).mono fun _ _ _ _ t ht => nomatch ht

theorem array_literal (x y : Operand) (n : Nat) :
    Adds (quad site ⟨.array, some x, some y, some (.cell n)⟩) fun strings _ _ =>
      ∀ t, x = .string t → (strings.idxOf? t).isSome := by
  simp only [quad, required, pure_bind]
  cases site.code.cell? n with
  | none => exact adds_throw _
  | some info =>
    refine (adds_seq (basic_load y .eax).adds (adds_seq (emit_adds _) (adds_seq (emit_adds _)
      (adds_seq (address_literal x)
        (adds_seq (emit_adds _) (basic_store (.temp n) .eax).adds))))).mono ?_
    rintro strings _ _ ⟨_, _, -, -, _, _, -, -, _, _, -, -, _, _, -, hx, -⟩
    exact hx

end Lower

/-! ### Operands and quads -/

namespace FunctionSite.Sound

variable {site : FunctionSite} {lo : Nat} (hsite : site.Sound lo) (base : Nat → Word) (s : Store)

include hsite

theorem tempAddress?_isSome {n : Nat} {ty : Ty} (hlo : lo ≤ n)
    (hn : site.code.temps[n]? = some ty) : (site.layout.tempAddress? base n).isSome := by
  rw [tempAddress?, isSome_map]
  exact hsite.temp_placed n hlo (Array.getElem?_eq_some_iff.mp hn).1

theorem named?_isSome {x : String} (h : site.env.Holds x) :
    (site.layout.named? base s x).isSome := by
  obtain ⟨⟨d, scope⟩, hfind, hd⟩ := h
  cases d with
  | var v =>
    rw [named?_var hfind, isSome_map]
    exact Lower.variableOffset?_isSome hsite hfind
  | param q =>
    rw [named?_param hfind, isSome_map, argumentAddress?, isSome_map]
    exact Lower.findIdx?_parameters_isSome hfind
  | fn f => exact absurd rfl (hd f)

theorem place?_isSome {o : Operand} (h : o.Stored site.env site.code lo) :
    (site.layout.place? base s o).isSome := by
  rcases h with ⟨h, hstring⟩ | ⟨n, rfl, hlo, ty, hty, -⟩
  · cases o with
    | cell n =>
      obtain ⟨hlo, hn, hinfo⟩ := h
      obtain ⟨info, hinfo⟩ := isSome_iff_exists.mp hinfo
      obtain ⟨a, ha⟩ := isSome_iff_exists.mp (hsite.tempAddress?_isSome base hlo hn)
      exact isSome_iff_exists.mpr
        ⟨_, place?_cell_eq_some.mpr ⟨info, a, hinfo, ha, rfl, rfl⟩⟩
    | name x => exact hsite.named?_isSome base s h
    | string t => exact absurd rfl (hstring t)
    | _ => exact h.elim
  · obtain ⟨a, ha⟩ := isSome_iff_exists.mp (hsite.tempAddress?_isSome base hlo hty)
    exact isSome_iff_exists.mpr ⟨_, place?_temp_eq_some.mpr ⟨hty, ha⟩⟩

/-- What can be read has a value. -/
theorem value?_isSome {o : Operand} (h : o.Readable site.env site.code lo) :
    (site.layout.value? base s o).isSome := by
  obtain ⟨w, rfl⟩ | ⟨b, rfl⟩ | hstored := Lower.readable_cases h
  · rfl
  · rfl
  · have hplace := hsite.place?_isSome base s hstored
    cases o with
    | int w => rfl
    | char b => rfl
    | _ => rwa [value?, isSome_map] <;> nofun

/-- What has an address has it in memory. -/
theorem address?_isSome {o : Operand} (h : o.Located site.env site.code lo) (image : Image)
    {literals : List String} (hliteral : ∀ t, o = .string t → (literals.idxOf? t).isSome) :
    (site.layout.address? base s image literals o).isSome := by
  by_cases hstring : ∃ t, o = .string t
  · obtain ⟨t, rfl⟩ := hstring
    rw [address?, isSome_map]
    exact hliteral t rfl
  · have hplace := hsite.place?_isSome base s (.inl ⟨h, fun t ht => hstring ⟨t, ht⟩⟩)
    rw [address?, isSome_map]
    · exact hplace
    · exact fun t ht => hstring ⟨t, ht⟩

/-- A quad has an effect unless it traps. -/
theorem effect?_isSome {q : Quad} (hop : q.op.IsInner) (hq : q.WellFormed site.env site.code lo)
    (hpending : q.output ≠ some .pending) (image : Image) {literals : List String}
    (hliteral : q.op = .array → ∀ t, q.first = some (.string t) → (literals.idxOf? t).isSome)
    (i : Nat) :
    (site.layout.effect? base s image literals q i).isSome ∨ site.layout.Traps base s q := by
  simp only [isSome_iff_exists]
  have hvalue : ∀ o, o.Readable site.env site.code lo → ∃ w, site.layout.value? base s o = some w :=
    fun o ho => isSome_iff_exists.mp (hsite.value?_isSome base s ho)
  obtain ⟨op, first, second, output⟩ := q
  cases op with
  | assign =>
    obtain ⟨x, o, rfl, hx, rfl, ho⟩ := hq
    obtain ⟨w, hw⟩ := hvalue x hx
    rcases ho with rfl | ho
    · exact .inl ⟨_, effect?_returnValue.mpr ⟨w, hw, rfl⟩⟩
    · have hne : o ≠ .returnValue := by
        rintro rfl
        exact ho.1
      obtain ⟨⟨ty, a⟩, hplace⟩ := isSome_iff_exists.mp (hsite.place?_isSome base s ho.stored)
      exact .inl ⟨_, (effect?_assign hne).mpr ⟨w, ty, a, hw, hplace, rfl⟩⟩
  | array =>
    obtain ⟨x, y, n, rfl, hx, rfl, hy, rfl, hlo, hn, hinfo⟩ := hq
    obtain ⟨info, hinfo⟩ := isSome_iff_exists.mp hinfo
    obtain ⟨start, hstart⟩ := isSome_iff_exists.mp
      (hsite.address?_isSome base s hx image fun t ht => hliteral rfl t (congrArg some ht))
    obtain ⟨index, hindex⟩ := hvalue y hy
    obtain ⟨a, ha⟩ := isSome_iff_exists.mp (hsite.tempAddress?_isSome base hlo hn)
    exact .inl ⟨_, effect?_array.mpr ⟨info, start, index, a, hinfo, hstart, hindex, ha, rfl⟩⟩
  | arith operator =>
    obtain ⟨x, y, n, rfl, hx, rfl, hy, rfl, hn⟩ := hq
    obtain ⟨a, ha⟩ := hvalue x hx
    obtain ⟨b, hb⟩ := hvalue y hy
    cases hcompute : operator.compute? a b with
    | none => exact .inr ⟨operator, x, y, a, b, rfl, rfl, rfl, ha, hb, hcompute⟩
    | some w =>
      obtain ⟨⟨ty, target⟩, hplace⟩ := isSome_iff_exists.mp
        (hsite.place?_isSome base s (.inr ⟨n, rfl, hn⟩))
      exact .inl ⟨_, effect?_arith.mpr ⟨a, b, w, ty, target, ha, hb, hcompute, hplace, rfl⟩⟩
  | jump =>
    obtain ⟨t, rfl⟩ := hq.resolve_left hpending
    exact .inl ⟨_, effect?_jump.mpr rfl⟩
  | compare relation =>
    obtain ⟨htarget, x, y, rfl, hx, rfl, hy⟩ := hq
    obtain ⟨t, rfl⟩ := htarget.resolve_left hpending
    obtain ⟨a, ha⟩ := hvalue x hx
    obtain ⟨b, hb⟩ := hvalue y hy
    exact .inl ⟨_, effect?_compare.mpr ⟨a, b, ha, hb, rfl⟩⟩
  | _ => exact hop.elim

end FunctionSite.Sound

end BlockLang
