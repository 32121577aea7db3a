import BlockLang.Proofs.Invocation.Basic

/-!
# Operands on the stack

Variables, temporaries and arguments lie in the frames of invocations that have not returned.
An operand stands for bytes that one of these invocations owns, or it is a parameter whose
argument is the address of such bytes, unless that address was given by a subscript.
-/

namespace BlockLang

open Activation Environment Layout List Option Word

variable {offset scope : Int} {i n : Nat} {o : Operand} {q : Parameter} {x : String} {ty : Ty}
  {addr : Word}

/-! ### Addresses in a frame -/

theorem Word.number_add_ofInt {a : Word} {z : Int} (hlow : 0 ≤ a.number + z)
    (hhigh : a.number + z < 2 ^ 32) : ((a + .ofInt z).number : Int) = a.number + z := by
  have hsum : (a + .ofInt z).number = (a.number + (z % (2 ^ 32 : Nat)).toNat) % 2 ^ 32 := by
    change (a.toBitVec + BitVec.ofInt 32 z).toNat = _
    rw [BitVec.toNat_add, BitVec.toNat_ofInt]
    rfl
  rw [hsum]
  omega

/-- The temporaries of a function have their types. -/
theorem Emit.getElem?_of_mem_newTemps {p : Progress} (h : (n, ty) ∈ newTemps p) :
    p.code.temps[n]? = some ty := by
  obtain ⟨⟨ty', n'⟩, hmem, heq⟩ := mem_map.mp h
  cases heq
  obtain ⟨hle, hty⟩ := mk_mem_zipIdx_iff_le_and_getElem?_sub.mp hmem
  rwa [getElem?_drop, Nat.add_sub_cancel' hle, Array.getElem?_toList] at hty

namespace Invocation

/-- The frames of invocations are intact, and their links follow the nesting of functions. -/
structure Standing (l : Launch) (rs : List CompiledFunction) (s : Store) (a : Invocation)
    (rest : List Invocation) : Prop where
  sound : Sound rs ((a :: rest).map toActivation)
  intact : Intact l s (a :: rest)

variable {l : Launch} {rs : List CompiledFunction} {s s' : Store} {a c : Invocation}
  {rest stack : List Invocation} {b : Word}

/-- What lies in the frame of an invocation is owned by it. -/
theorem Intact.owned_local (h : Intact l s stack) (hc : c ∈ stack)
    (hlow : -(c.function.frame.size : Int) ≤ offset) (hhigh : offset + n ≤ 0) :
    (c.base + .ofInt offset).bytes n ⊆ c.Owns := by
  obtain ⟨older, hframed, htop⟩ := h.framed hc
  have hroom := hframed.room
  have hlt := c.base.number_lt
  have hnumber : ((c.base + .ofInt offset).number : Int) = c.base.number + offset :=
    number_add_ofInt (by omega) (by omega)
  intro b hb
  rw [mem_bytes (by omega)] at hb
  exact ⟨⟨by omega, by omega⟩, .inl (by omega)⟩

/-- The arguments of an invocation lie in its frame. -/
theorem Intact.argument_extent (h : Intact l s stack) (hc : c ∈ stack) (hi : i < c.arity) :
    (c.base + .ofNat (12 + 4 * i)).bytes 4 ⊆ c.Extent ∧
      (c.base + .ofNat (12 + 4 * i)).number = c.base.number + (12 + 4 * i) ∧
      c.base.number + (12 + 4 * i) + 4 ≤ 2 ^ 32 := by
  obtain ⟨older, hframed, htop⟩ := h.framed hc
  have hheight := hframed.height
  have hlt : l.limit < 2 ^ 32 := number_lt _
  have hle : l.top ≤ l.limit := Nat.sub_le _ _
  have hnumber : (c.base + .ofNat (12 + 4 * i)).number = c.base.number + (12 + 4 * i) :=
    number_add (by omega)
  refine ⟨fun b hb => ?_, hnumber, by omega⟩
  rw [mem_bytes (by omega)] at hb
  exact ⟨by omega, by omega⟩

/-- The arguments of an invocation that are values are owned by it. -/
theorem Intact.owned_argument (h : Intact l s stack) (hc : c ∈ stack)
    (hq : c.function.function.parameters[i]? = some q) (hvalue : q.byReference = false) :
    (c.base + .ofNat (12 + 4 * i)).bytes 4 ⊆ c.Owns := by
  obtain ⟨hextent, hnumber, hle⟩ := h.argument_extent hc (List.getElem?_eq_some_iff.mp hq).1
  intro b hb
  have hbytes := hb
  rw [mem_bytes (by omega), hnumber] at hbytes
  exact ⟨hextent hb, .inr ⟨i, q, hq, hvalue, hbytes⟩⟩

theorem data_of_owned (h : ∃ c ∈ stack, addr.bytes n ⊆ c.Owns) : addr.bytes n ⊆ l.Data stack := by
  obtain ⟨c, hc, howns⟩ := h
  exact fun b hb => .inr (.inr ⟨c, hc, howns hb⟩)

namespace Standing

theorem function_mem (h : Standing l rs s a rest) : a.function ∈ rs :=
  h.sound.mem _ mem_cons_self

/-- A number of links lead to the frame of the function as many levels around. -/
theorem reached (h : Standing l rs s a rest) {k : Nat} (hk : k ≤ a.function.path.length) :
    ∃ newer c older, a :: rest = newer ++ c :: older ∧
      follow? ((a :: rest).map toActivation) k a.base = some c.base ∧
      s.frames a.base k = c.base ∧
      c.function.path = a.function.path.take (a.function.path.length - k) := by
  obtain ⟨newer, b, older, hstack, hfollow, hpath, -⟩ : Reaches
      ((a :: rest).map toActivation) a.toActivation k := by
    cases h.sound with
    | cons _ _ _ reaches => exact reaches k hk
  obtain ⟨newer', others, hrest, -, hothers⟩ := map_eq_append_iff.mp hstack
  obtain ⟨c, older', rfl, rfl, -⟩ := map_eq_cons_iff.mp hothers
  exact ⟨newer', c, older', hrest, hfollow, h.intact.frames_eq hfollow, hpath⟩

/-- What lies in the frame of an invocation does not depend on what lies below the frames. -/
theorem read_congr (h : Standing l rs s a rest)
    (heq : ∀ b, bottom l (a :: rest) ≤ b.number → s' b = s b) {ty : Ty} {addr : Word}
    (hc : c ∈ a :: rest) (hextent : addr.bytes ty.width ⊆ c.Extent) :
    s'.read ty addr = s.read ty addr :=
  Store.read_congr fun b hb => heq b (h.intact.bottom_le hc (hextent hb))

section Operands

variable {tree : Decl} {p : Progress} (hcompiles : Compiles tree p rs) (htext : tree.InText)
  (h : Standing l rs s a rest)

include hcompiles h

/-- The temporaries of the running function lie in its frame. -/
theorem owned_temp (hn : a.function.closed.code.temps[n]? = some ty) (hty : ty ≠ .nothing)
    (haddr : (a.function.layout rs).tempAddress? (s.frames a.base) n = some addr) :
    addr.bytes ty.width ⊆ a.Owns := by
  obtain ⟨p', hcloses⟩ := hcompiles.closes _ h.function_mem
  obtain ⟨offset, hoffset, rfl⟩ := map_eq_some_iff.mp haddr
  obtain ⟨ty', hmem, hhigh, hlow⟩ := Frame.tempOffset?_mem hcloses.layout hoffset
  cases (Emit.getElem?_of_mem_newTemps hmem).symm.trans hn
  rw [Ty.width_eq_size hty]
  exact h.intact.owned_local mem_cons_self hlow hhigh

include htext

/-- The frame of the function that declares a variable or a parameter. -/
theorem exists_frame {d : Declaration} (hx : a.function.opened.env.find? x = some ⟨d, scope⟩)
    (hd : ∀ f, d ≠ .fn f) :
    ∃ newer c older, a :: rest = newer ++ c :: older ∧
      follow? ((a :: rest).map toActivation)
        (a.function.opened.env.scope - scope).toNat a.base = some c.base ∧
      s.frames a.base ((a.function.layout rs).levels scope) = c.base ∧
      a.function.owner? rs scope = some c.function ∧ c.function.opened.env.scope = scope ∧
      c.function.Encloses a.function ∧ c.function ∈ rs := by
  have hr := h.function_mem
  obtain ⟨owner, howner, hfound, hscope, hencloses⟩ :=
    hcompiles.exists_owner htext hr (mem_of_find?_eq_some hx) hd
  replace hscope : owner.opened.env.scope = scope := hscope
  have hle := hencloses.inside.length_le
  have hdepth := hencloses.scope
  have hdepth' := hcompiles.scope_eq hr
  have hlevels : (a.function.opened.env.scope - scope).toNat =
      a.function.path.length - owner.path.length := by
    omega
  obtain ⟨newer, c, older, hstack, hfollow, hbase, hpath⟩ := h.reached
    (k := a.function.path.length - owner.path.length) (Nat.sub_le _ _)
  have hc : c ∈ a :: rest := hstack ▸ mem_append_right _ mem_cons_self
  have hcr : c.function ∈ rs := h.sound.mem _ (mem_map_of_mem hc)
  rw [Nat.sub_sub_self hle, ← prefix_iff_eq_take.mp hencloses.inside] at hpath
  obtain rfl := hcompiles.eq_of_path_eq htext hcr howner hpath
  rw [← hlevels] at hfollow hbase
  exact ⟨newer, c, older, hstack, hfollow, hbase, hfound, hscope, hencloses, hcr⟩

/-- Arguments lie in the frames of their functions. -/
theorem exists_argument (hx : a.function.opened.env.find? x = some ⟨.param q, scope⟩)
    (haddr : (a.function.layout rs).argumentAddress? (s.frames a.base) scope x = some addr) :
    ∃ newer c older i, a :: rest = newer ++ c :: older ∧
      follow? ((a :: rest).map toActivation)
        (a.function.opened.env.scope - scope).toNat a.base = some c.base ∧
      c.function.function.parameters.findIdx? (fun q => q.name = x) = some i ∧
      c.function.function.parameters[i]? = some q ∧ addr = c.base + .ofNat (12 + 4 * i) := by
  obtain ⟨newer, c, older, hstack, hfollow, hbase, howner, rfl, hencloses, hcr⟩ :=
    h.exists_frame hcompiles htext hx nofun
  obtain ⟨i, hi, rfl⟩ := map_eq_some_iff.mp haddr
  have hparameters : (a.function.layout rs).parameters c.function.opened.env.scope =
      c.function.function.parameters := congrArg (fun o => (Option.map _ o).getD []) howner
  rw [hparameters] at hi
  rw [hbase]
  refine ⟨newer, c, older, i, hstack, hfollow, hi, ?_, rfl⟩
  -- it is the parameter that the name stands for
  obtain ⟨hlt, hname, -⟩ := findIdx?_eq_some_iff_getElem.mp hi
  have hmem := mem_parameters_of_find? hx
  rw [hencloses.parameters] at hmem
  have hnodup := (hcompiles.settled _ h.function_mem).env.nodup_parameters
    c.function.opened.env.scope
  rw [hencloses.parameters] at hnodup
  rw [getElem?_eq_getElem hlt, inj_on_of_nodup_map hnodup (getElem_mem hlt) hmem
    ((of_decide_eq_true hname).trans (name_of_find? hx).symm)]

/-- Scalar variables lie in the frames of their functions. -/
theorem owned_variable {v : Variable} (hx : a.function.opened.env.find? x = some ⟨.var v, scope⟩)
    (hv : v.extents = []) (hty : v.ty ≠ .nothing)
    (hoffset : (a.function.layout rs).slot? scope x = some offset) :
    ∃ c ∈ a :: rest, (s.frames a.base ((a.function.layout rs).levels scope) +
      .ofInt offset).bytes v.ty.width ⊆ c.Owns := by
  obtain ⟨newer, c, older, hstack, -, hbase, howner, rfl, hencloses, hcr⟩ :=
    h.exists_frame hcompiles htext hx nofun
  have hc : c ∈ a :: rest := hstack ▸ mem_append_right _ mem_cons_self
  obtain ⟨p', hcloses⟩ := hcompiles.closes _ hcr
  have hslot : c.function.frame.variableOffset? x = some offset := by
    have hslot : (a.function.owner? rs c.function.opened.env.scope).bind
      (fun a => a.frame.variableOffset? x) = some offset := hoffset
    rwa [howner, bind_some] at hslot
  obtain ⟨v', hv', hname, size, hsize, hhigh, hlow⟩ :=
    Frame.variableOffset?_mem hcloses.layout hslot
  -- it is the variable that the name stands for
  have hmem := hencloses.locals.subset (mem_locals_of_find? hx)
  obtain rfl : v = v' := inj_on_of_nodup_map
    ((hcompiles.settled _ hcr).env.nodup_locals _) hmem hv'
    ((name_of_find? hx).trans hname.symm)
  have hwidth : size = v.ty.size := by
    rw [Variable.size?, hv] at hsize
    obtain ⟨_, hsome, hlt⟩ := bind_eq_some_iff.mp hsize
    cases hsome
    exact (some.inj (ite_none_right_eq_some.mp hlt).2).symm
  rw [hbase, Ty.width_eq_size hty, ← hwidth]
  exact ⟨c, hc, h.intact.owned_local hc hlow hhigh⟩

/-- A scalar parameter whose address no subscript gave stands for data. -/
theorem data_of_parameter (hx : a.function.opened.env.find? x = some ⟨.param q, scope⟩)
    (hscalar : (Declaration.param q).IsScalar) (hexact : ¬ Subscripted (a :: rest) (.name x))
    (haddr : (a.function.layout rs).argumentAddress? (s.frames a.base) scope x = some addr) :
    (if q.byReference then s.read .int addr else addr).bytes q.ty.width ⊆ l.Data (a :: rest) := by
  obtain ⟨newer, c, older, i, hstack, hfollow, hi, hq, rfl⟩ :=
    h.exists_argument hcompiles htext hx haddr
  have hintact := h.intact
  rw [hstack] at hintact
  by_cases href : q.byReference
  · rw [if_pos href, hstack]
    refine Set.Subset.trans (hintact.older.1.references i q hq href hscalar ?_) ?_
    · exact fun as y hgives hy hsubscripted =>
        hexact (.passed hx href hstack hfollow hi hgives hy hsubscripted)
    · exact (data_subset l [c] older).trans (data_subset l newer (c :: older))
  · rw [if_neg href]
    have hc : c ∈ a :: rest := hstack ▸ mem_append_right _ mem_cons_self
    have howns := h.intact.owned_argument hc hq (Bool.eq_false_iff.mpr href)
    refine data_of_owned ⟨c, hc, Set.Subset.trans ?_ howns⟩
    rintro b ⟨k, hk, rfl⟩
    exact ⟨k, hk.trans_le q.ty.width_le, rfl⟩

/-- An operand whose address no subscript gave stands for data. -/
theorem data_of_place (htyped : a.function.opened.env.Typed) {lo : Nat}
    (ho : o.Readable a.function.opened.env a.function.closed.code lo)
    (hexact : ¬ Subscripted (a :: rest) o)
    (hplace : (a.function.layout rs).place? (s.frames a.base) s o = some (ty, addr)) :
    addr.bytes ty.width ⊆ l.Data (a :: rest) := by
  cases o with
  | temp n =>
    obtain ⟨-, ty', hty, hne⟩ := ho
    obtain ⟨hty', haddr⟩ := place?_temp_eq_some.mp hplace
    cases hty.symm.trans hty'
    exact data_of_owned ⟨a, mem_cons_self, h.owned_temp hcompiles hty hne haddr⟩
  | name x =>
    obtain ⟨⟨d, scope⟩, hx, hscalar⟩ := ho
    cases d with
    | var v =>
      obtain ⟨offset, hoffset, heq⟩ :=
        map_eq_some_iff.mp ((named?_var hx).symm.trans hplace)
      cases heq
      exact data_of_owned
        (h.owned_variable hcompiles htext hx hscalar (htyped.values x _ _ hx rfl) hoffset)
    | param q =>
      obtain ⟨argument, hargument, heq⟩ :=
        map_eq_some_iff.mp ((named?_param hx).symm.trans hplace)
      cases heq
      exact h.data_of_parameter hcompiles htext hx hscalar hexact hargument
    | fn f => exact hscalar.elim
  | cell n => exact absurd (.cell _ n) hexact
  | _ => cases hplace

/-- The place of an operand does not depend on what lies below the frames. -/
theorem place?_congr (heq : ∀ b, bottom l (a :: rest) ≤ b.number → s' b = s b)
    (hcell : ∀ n, o = .cell n → a.function.closed.code.temps[n]? = some .int) :
    (a.function.layout rs).place? (s.frames a.base) s' o =
      (a.function.layout rs).place? (s.frames a.base) s o := by
  cases o with
  | cell n =>
    rw [place?, place?]
    cases haddr : (a.function.layout rs).tempAddress? (s.frames a.base) n with
    | none => rfl
    | some addr =>
      have hread : s'.read .int addr = s.read .int addr := h.read_congr heq mem_cons_self
        fun b hb => (h.owned_temp hcompiles (hcell n rfl) (by decide) haddr hb).1
      simp only [bind_eq_bind, bind_some, hread]
  | name x =>
    change named? _ _ _ x = named? _ _ _ x
    cases hx : (a.function.layout rs).env.find? x with
    | none => rw [named?, named?, hx]
    | some binding =>
      obtain ⟨d, scope⟩ := binding
      cases d with
      | var v => rw [named?_var hx, named?_var hx]
      | param q =>
        rw [named?_param hx, named?_param hx]
        cases haddr : (a.function.layout rs).argumentAddress? (s.frames a.base) scope x with
        | none => rfl
        | some addr =>
          obtain ⟨newer, c, older, i, hstack, -, -, hq, rfl⟩ :=
            h.exists_argument hcompiles htext hx haddr
          have hc : c ∈ a :: rest := hstack ▸ mem_append_right _ mem_cons_self
          have hextent := (h.intact.argument_extent hc (List.getElem?_eq_some_iff.mp hq).1).1
          rw [map_some, map_some,
            show s'.read .int _ = s.read .int _ from h.read_congr heq hc hextent]
      | fn f => rw [named?, named?, hx]
  | _ => rfl

end Operands

/-- The frames around can be reached as long as only memory below the frames changes. -/
theorem steady {σ : Processor} (h : Standing l rs σ.store a rest)
    (hebp : σ.registers .ebp = a.base)
    (hesp : (σ.registers .esp).number ≤ bottom l (a :: rest)) :
    Lower.Steady l.image (σ.store.frames a.base) (a.function.path.length + 1) σ := by
  intro σ' hebp' heq
  refine ⟨hebp'.trans hebp, fun k hk => Store.read_congr fun b hb => heq (.inr ?_)⟩
  obtain ⟨newer, c, older, hstack, -, hbase, -⟩ := h.reached (Nat.le_of_lt_succ hk)
  have hc : c ∈ a :: rest := hstack ▸ mem_append_right _ mem_cons_self
  obtain ⟨older, hframed, htop⟩ := h.intact.framed hc
  have hheight := hframed.height
  have hlt : l.limit < 2 ^ 32 := number_lt _
  have hle : l.top ≤ l.limit := Nat.sub_le _ _
  have hnumber : (c.base + 8).number = c.base.number + 8 := number_add (n := 8) (by omega)
  have hwidth : Ty.int.width = 4 := rfl
  rw [hbase, hwidth, mem_bytes (by omega)] at hb
  exact hesp.trans (h.intact.bottom_le hc ⟨by omega, by omega⟩)

end Standing

end Invocation

end BlockLang
